import Mlvpn.Ports.Scheduling

/-!
# A send target always exists

The scheduler's table and its primary come from one and the same refresh: `Inv`
says that the entries are the links that scored, in order, and that a primary is
among them.  Weight updates, penalties and picks leave that alone, whatever the
floating-point values are, so a pick is always one of those links; only with an
empty table does the choice fall to the least bad link of a fresh snapshot.

## Main results

* `inv_step`, `inv_run`: the invariant over any sequence of calls.
* `swrrPickUnderCap_spec`: a pick takes a link of the table and changes no link
  index.
* `pickLink_target`: what `pick_link` returns.
-/

namespace Mlvpn.Ports.Scheduling

open Verified Extremum
open ConfigFile (SchedulerConfig)
open Congestion (CounterSnapshot)
open Delivery (DeliverySample)
open FecRecovery (Instant)
open Verified.Floating (ofRat)

variable {F : Type*} [Floating F]

/-! ## The links in the table -/

/-- The link indices of the table. -/
def indices (entries : List (SwrrEntry F)) : List Nat := entries.map (·.linkIndex)

/-- The links with a positive score. -/
def scored (links : List (Link F)) : List Nat := (Scheduler.upIndices links).map Prod.fst

theorem lt_of_mem_scored {links : List (Link F)} {i : Nat} (h : i ∈ scored links) :
    i < links.length := by
  obtain ⟨l, hl, rfl⟩ := List.mem_map.mp h
  obtain ⟨e, he, rfl⟩ := List.mem_map.mp (List.mem_of_mem_filter hl)
  exact List.snd_lt_of_mem_zipIdx he

/-- Only a link that is up and not disabled has a positive score. -/
theorem usable_of_mem_scored (hzero : ¬(ofRat 0 : F) < ofRat 0) {links : List (Link F)} {i : Nat}
    (h : i ∈ scored links) :
    ∃ link, links[i]? = some link ∧ link.state = .Up ∧ link.adminDisabled = false := by
  obtain ⟨⟨j, x⟩, hl, rfl⟩ := List.mem_map.mp h
  obtain ⟨hl, hpos⟩ := List.mem_filter.mp hl
  obtain ⟨⟨link, k⟩, hk, heq⟩ := List.mem_map.mp hl
  cases heq
  refine ⟨link, List.mem_zipIdx_iff_getElem?.mp hk, ?_⟩
  by_contra hnot
  have hunusable : link.state ≠ .Up ∨ link.adminDisabled = true := by
    by_cases hup : link.state = .Up
    · exact .inr (Bool.of_not_eq_false fun hfalse => hnot ⟨hup, hfalse⟩)
    · exact .inl hup
  rw [score, if_pos hunusable] at hpos
  exact hzero (of_decide_eq_true hpos)

theorem indices_refresh (s : Scheduler F) (links : List (Link F)) (cfg : SchedulerConfig F)
    (peerPrimaryIndex : Option Nat) :
    indices (s.refresh links cfg peerPrimaryIndex).entries = scored links := by
  simp [Scheduler.refresh, indices, scored, Function.comp_def]

namespace Scheduler

theorem linkIndex_entryAt_mem {entries : List (SwrrEntry F)} {pos : Nat}
    (h : pos < entries.length) : (entryAt entries pos).linkIndex ∈ indices entries := by
  unfold entryAt
  rw [List.getD_eq_getElem _ _ h]
  exact List.mem_map_of_mem (List.getElem_mem h)

/-- A round moves current weights only. -/
theorem pickAmong_map {α : Type*} {f : SwrrEntry F → α}
    (hf : ∀ e currentWeight, f { e with currentWeight } = f e) (entries : List (SwrrEntry F))
    (first : Nat) (rest : List Nat) : (pickAmong entries first rest).1.map f = entries.map f := by
  apply List.ext_getElem (by simp [pickAmong])
  intro i hi hi'
  simp only [pickAmong, List.getElem_map, List.getElem_modify, List.getElem_mapIdx]
  split
  · rw [hf]
    split
    · exact hf _ _
    · rfl
  · split
    · exact hf _ _
    · rfl

variable (entries : List (SwrrEntry F)) (first : Nat) (rest : List Nat) {s : Scheduler F}
  {ups : List (Nat × F)}

/-- Its winner is one of the positions. -/
theorem pickAmong_winner :
    ∃ pos ∈ first :: rest,
      (pickAmong entries first rest).2 = (entryAt entries pos).linkIndex := by
  let gained := entries.mapIdx fun pos (e : SwrrEntry F) =>
    if pos ∈ first :: rest then { e with currentWeight := e.currentWeight + e.effectiveWeight }
    else e
  have hgained : ∀ pos, (entryAt gained pos).linkIndex = (entryAt entries pos).linkIndex := by
    intro pos
    simp only [entryAt, gained, List.getD_eq_getElem?_getD, List.getElem?_mapIdx]
    cases entries[pos]? with
    | none => rfl
    | some e =>
      simp only [Option.map_some, Option.getD_some]
      split <;> rfl
  exact ⟨_, maxByFrom_mem (fun a b => Floating.totalCmp (entryAt gained a).currentWeight
    (entryAt gained b).currentWeight) first rest, hgained _⟩

theorem pickAmong_spec (hlt : ∀ pos ∈ first :: rest, pos < entries.length) :
    indices (pickAmong entries first rest).1 = indices entries ∧
      (pickAmong entries first rest).2 ∈ indices entries := by
  refine ⟨pickAmong_map (fun _ _ => rfl) entries first rest, ?_⟩
  obtain ⟨pos, hpos, hwinner⟩ := pickAmong_winner entries first rest
  rw [hwinner]
  exact linkIndex_entryAt_mem (hlt pos hpos)

theorem swrrPick_spec {entries : List (SwrrEntry F)} (hne : entries ≠ []) :
    indices (swrrPick entries).1 = indices entries ∧ (swrrPick entries).2 ∈ indices entries := by
  have hpos : 0 < entries.length := List.length_pos_iff.mpr hne
  apply pickAmong_spec
  intro pos hmem
  rcases List.mem_cons.mp hmem with rfl | hmem
  · exact hpos
  · obtain ⟨i, hi, rfl⟩ := List.mem_range'.mp hmem
    omega

/-- The positions that pass the caps are positions of the table. -/
theorem checkCaps_lt (clock : PickClock) (frameLen : UInt64) (pos : Nat)
    (entries : List (SwrrEntry F)) (limits : RateLimits) :
    ∀ i ∈ (checkCaps clock frameLen pos entries limits).1, i < pos + entries.length := by
  induction entries generalizing pos limits with
  | nil => simp [checkCaps]
  | cons e es ih =>
    intro i hi
    simp only [checkCaps] at hi
    rw [List.length_cons]
    split at hi
    case h_1 =>
      rcases List.mem_cons.mp hi with rfl | hi
      · omega
      · have := ih (pos + 1) _ i hi
        omega
    case h_2 capMbps _ =>
      dsimp only at hi
      split at hi
      · rcases List.mem_cons.mp hi with rfl | hi
        · omega
        · have := ih (pos + 1) _ i hi
          omega
      · have := ih (pos + 1) _ i hi
        omega

theorem skipPenalized_spec (s : Scheduler F) (now : Instant) (eligible : List Nat) :
    (s.skipPenalized now eligible).1.entries = s.entries ∧
      (s.skipPenalized now eligible).1.primary = s.primary ∧
      (s.skipPenalized now eligible).2 ⊆ eligible := by
  unfold skipPenalized
  split
  · exact ⟨rfl, rfl, List.Subset.refl _⟩
  · refine ⟨rfl, rfl, ?_⟩
    dsimp only
    split
    · exact List.Subset.refl _
    · exact fun pos hpos => List.mem_of_mem_filter hpos

/-- A pick from a table that is not empty: one of its links, and no index moves. -/
theorem swrrPickUnderCap_spec (hne : s.entries ≠ []) (clock : PickClock) (frameLen : UInt64) :
    indices (s.swrrPickUnderCap clock frameLen).1.entries = indices s.entries ∧
      (s.swrrPickUnderCap clock frameLen).1.primary = s.primary ∧
      (s.swrrPickUnderCap clock frameLen).2 ∈ indices s.entries := by
  have hcaps := checkCaps_lt clock frameLen 0 s.entries s.rateLimits
  unfold swrrPickUnderCap
  dsimp only
  generalize checkCaps clock frameLen 0 s.entries s.rateLimits = capped at hcaps ⊢
  obtain ⟨hentries, hprimary, hsub⟩ :=
    skipPenalized_spec { s with rateLimits := capped.2 } clock.penalty capped.1
  generalize { s with rateLimits := capped.2 }.skipPenalized clock.penalty capped.1 = skipped
    at hentries hprimary hsub ⊢
  rcases skipped with ⟨s', eligible⟩
  dsimp only at hentries hprimary hsub ⊢
  rw [hentries]
  cases eligible with
  | nil =>
    obtain ⟨hindices, hmem⟩ := swrrPick_spec hne
    exact ⟨hindices, hprimary, hmem⟩
  | cons first rest =>
    obtain ⟨hindices, hmem⟩ := pickAmong_spec s.entries first rest fun pos hpos => by
      have := hcaps pos (hsub hpos)
      omega
    exact ⟨hindices, hprimary, hmem⟩

/-! ## The primary -/

/-- In every mode a refresh leaves a primary only among the links that scored. -/
theorem reviewPrimary_mem {upThreshold : UInt32} {primaryScore : F}
    (hprimary : ∀ p, s.primary = some p → p ∈ ups.map Prod.fst) {p : Nat}
    (h : (s.reviewPrimary ups upThreshold primaryScore).primary = some p) :
    p ∈ ups.map Prod.fst := by
  unfold reviewPrimary at h
  split at h
  case h_1 => exact hprimary p h
  case h_2 otherIdx otherScore hbest =>
    have hother : otherIdx ∈ ups.map Prod.fst :=
      List.mem_map_of_mem (List.mem_of_mem_filter (mem_of_maxBy hbest))
    split at h
    · split at h
      · split at h
        · dsimp only at h
          split at h
          · cases h
            exact hother
          · exact hprimary p h
        · exact hprimary p h
      · exact hprimary p h
    · exact hprimary p h

theorem refreshFromScores_mem {cfg : SchedulerConfig F} {peerPrimaryIndex : Option Nat} {p : Nat}
    (h : (s.refreshFromScores ups cfg peerPrimaryIndex).primary = some p) :
    p ∈ ups.map Prod.fst := by
  unfold refreshFromScores at h
  split at h
  · -- The peer's choice, if it is up here.
    have hany := (Option.filter_eq_some_iff.mp h).2
    obtain ⟨l, hl, heq⟩ := List.any_eq_true.mp hany
    exact of_decide_eq_true heq ▸ List.mem_map_of_mem hl
  · split at h
    · exact nomatch h
    · dsimp only at h
      split at h
      · obtain ⟨l, hl, rfl⟩ := Option.map_eq_some_iff.mp h
        exact List.mem_map_of_mem (mem_of_maxBy hl)
      case h_2 primaryScore hscore =>
        apply reviewPrimary_mem _ h
        intro q hq
        obtain ⟨idx, hidx, hfind⟩ := Option.bind_eq_some_iff.mp hscore
        obtain ⟨l, hl, -⟩ := Option.map_eq_some_iff.mp hfind
        have hqidx : q = idx := Option.some.inj (hq.symm.trans hidx)
        have hlidx : l.1 = idx := by simpa using List.find?_some hl
        rw [hqidx, ← hlidx]
        exact List.mem_map_of_mem (List.mem_of_find?_eq_some hl)

end Scheduler

/-! ## Runs -/

/-- A call on the scheduler of a tunnel with `n` links. -/
inductive Op (F : Type*) (n : Nat) where
  | refresh (links : Fin n → Link F) (cfg : SchedulerConfig F) (peerPrimaryIndex : Option Nat)
  | updateCongestion (now : Instant) (counters : Fin n → CounterSnapshot)
  | updateDelivery (now : Instant) (samples : Fin n → Option (DeliverySample F))
  | noteQueueFull (now : Instant) (idx : Nat)
  | noteSendFailed (now : Instant) (idx : Nat)
  | selectFast (clock : Scheduler.PickClock) (frameLen : UInt64)
  | select (links : Fin n → Link F) (clock : Scheduler.PickClock) (frameLen : UInt64)

variable {n : Nat}

/-- The snapshot `pick_link` takes of the tunnel's links. -/
def snapshot (links : Fin n → Link F) : List (LinkScore F) := snapshotScores (List.ofFn links)

omit [Floating F] in
theorem snapshot_eq_nil {links : Fin n → Link F} : snapshot links = [] ↔ n = 0 := by
  rw [← List.length_eq_zero_iff]
  simp [snapshot, snapshotScores]

namespace Scheduler

def step (s : Scheduler F) : Op F n → Scheduler F
  | .refresh links cfg peerPrimaryIndex => s.refresh (List.ofFn links) cfg peerPrimaryIndex
  | .updateCongestion now counters => (s.updateCongestion now (List.ofFn counters)).1
  | .updateDelivery now samples => (s.updateDelivery now (List.ofFn samples)).1
  | .noteQueueFull now idx => s.noteQueueFull now idx
  | .noteSendFailed now idx => s.noteSendFailed now idx
  | .selectFast clock frameLen => (s.selectFast n clock frameLen).1
  | .select links clock frameLen => (s.select (snapshot links) clock frameLen).1

def run (s : Scheduler F) (ops : List (Op F n)) : Scheduler F := ops.foldl step s

/-- A choice is a pick under the caps, with links, no primary and entries, or changes nothing. -/
theorem step_selectFast (s : Scheduler F) (clock : PickClock) (frameLen : UInt64) :
    s.step (.selectFast clock frameLen : Op F n) =
      if n ≠ 0 ∧ s.primary = none ∧ s.entries.isEmpty = false then
        (s.swrrPickUnderCap clock frameLen).1 else s := by
  unfold step selectFast
  cases s.primary <;> cases s.entries.isEmpty <;> by_cases hn : n = 0 <;> simp [hn]

theorem step_select (s : Scheduler F) (links : Fin n → Link F) (clock : PickClock)
    (frameLen : UInt64) : s.step (.select links clock frameLen) =
      if n ≠ 0 ∧ s.primary = none ∧ s.entries.isEmpty = false then
        (s.swrrPickUnderCap clock frameLen).1 else s := by
  unfold step select
  cases s.primary <;> cases s.entries.isEmpty <;> by_cases hn : n = 0 <;> simp [hn, snapshot_eq_nil]

end Scheduler

/-- The links with a positive score after `op`, if `last` had one before. -/
def rescored (last : List Nat) : Op F n → List Nat
  | .refresh links _ _ => scored (List.ofFn links)
  | _ => last

/-- The links with a positive score at the last refresh of `ops`. -/
def lastScored (last : List Nat) (ops : List (Op F n)) : List Nat := ops.foldl rescored last

/-- The table and the primary stem from the refresh at which `last` scored. -/
structure Inv (n : Nat) (last : List Nat) (s : Scheduler F) : Prop where
  table : indices s.entries = last
  primary : ∀ p, s.primary = some p → p ∈ last
  bound : ∀ i ∈ last, i < n

section Inv

variable {last : List Nat} {s s' : Scheduler F}

omit [Floating F] in
theorem inv_new : Inv n [] (Scheduler.new : Scheduler F) where
  table := rfl
  primary := fun _ h => nomatch h
  bound := fun _ h => nomatch h

omit [Floating F] in
/-- Whatever keeps the links of the table and the primary. -/
theorem Inv.of_eq (h : Inv n last s) (htable : indices s'.entries = indices s.entries)
    (hprimary : s'.primary = s.primary) : Inv n last s' where
  table := htable.trans h.table
  primary := by rw [hprimary]; exact h.primary
  bound := h.bound

theorem indices_rescale (s : Scheduler F) : indices s.rescale.entries = indices s.entries := by
  simp [Scheduler.rescale, indices, Function.comp_def]

theorem inv_refresh (s : Scheduler F) (links : Fin n → Link F) (cfg : SchedulerConfig F)
    (peerPrimaryIndex : Option Nat) :
    Inv n (scored (List.ofFn links)) (s.refresh (List.ofFn links) cfg peerPrimaryIndex) where
  table := indices_refresh s _ cfg peerPrimaryIndex
  primary := fun _ h => Scheduler.refreshFromScores_mem h
  bound := fun i hi => by simpa using lt_of_mem_scored hi

theorem Inv.pick (h : Inv n last s) (hne : s.entries.isEmpty = false) (clock : Scheduler.PickClock)
    (frameLen : UInt64) :
    Inv n last (s.swrrPickUnderCap clock frameLen).1 ∧
      (s.swrrPickUnderCap clock frameLen).2 ∈ last := by
  have hentries : s.entries ≠ [] := by simpa using hne
  obtain ⟨htable, hprimary, hmem⟩ :=
    Scheduler.swrrPickUnderCap_spec hentries clock frameLen
  exact ⟨h.of_eq htable hprimary, h.table ▸ hmem⟩

/-- The fast path: nothing without links or without a table, else a link of the
table. -/
theorem Inv.selectFast (h : Inv n last s) (clock : Scheduler.PickClock) (frameLen : UInt64) :
    Inv n last (s.selectFast n clock frameLen).1 ∧
      (∀ idx, (s.selectFast n clock frameLen).2 = some idx → idx ∈ last) ∧
      ((s.selectFast n clock frameLen).2 = none → n = 0 ∨ last = []) := by
  unfold Scheduler.selectFast
  split
  case isTrue hzero => exact ⟨h, fun _ hidx => (nomatch hidx), fun _ => Or.inl hzero⟩
  case isFalse hpos =>
    split
    case h_1 primary hprimary =>
      refine ⟨h, fun idx hidx => ?_, fun hnone => nomatch hnone⟩
      exact h.primary idx (hprimary.trans hidx)
    case h_2 =>
      cases hempty : s.entries.isEmpty with
      | true =>
        have htable : s.entries = [] := by simpa using hempty
        refine ⟨h, fun idx hidx => (nomatch hidx), fun _ => Or.inr ?_⟩
        rw [← h.table, htable]
        rfl
      | false =>
        obtain ⟨hinv, hmem⟩ := h.pick hempty clock frameLen
        exact ⟨hinv, fun idx hidx => Option.some.inj hidx ▸ hmem, fun hnone => nomatch hnone⟩

omit [Floating F] in
theorem linkIndex_lt_of_mem_snapshot {links : Fin n → Link F} {l : LinkScore F}
    (h : l ∈ snapshot links) : l.linkIndex < n := by
  obtain ⟨e, he, rfl⟩ := List.mem_map.mp h
  simpa using List.snd_lt_of_mem_zipIdx he

/-- The full choice: nothing only without links, else a link of the table, or any
link when the table is empty. -/
theorem Inv.select (h : Inv n last s) (links : Fin n → Link F) (clock : Scheduler.PickClock)
    (frameLen : UInt64) :
    Inv n last (s.select (snapshot links) clock frameLen).1 ∧
      (∀ idx, (s.select (snapshot links) clock frameLen).2 = some idx →
        idx < n ∧ (last ≠ [] → idx ∈ last)) ∧
      ((s.select (snapshot links) clock frameLen).2 = none ↔ n = 0) := by
  unfold Scheduler.select
  split
  case isTrue hnil =>
    exact ⟨h, fun _ hidx => (nomatch hidx), iff_of_true rfl (snapshot_eq_nil.mp hnil)⟩
  case isFalse hlinks =>
    have hpos : n ≠ 0 := fun hzero => hlinks (snapshot_eq_nil.mpr hzero)
    split
    case h_1 primary hprimary =>
      refine ⟨h, fun idx hidx => ?_, iff_of_false nofun hpos⟩
      have hmem : idx ∈ last := h.primary idx (hprimary.trans hidx)
      exact ⟨h.bound idx hmem, fun _ => hmem⟩
    case h_2 =>
      cases hempty : s.entries.isEmpty with
      | true =>
        obtain ⟨l, hl⟩ := minBy_isSome Scheduler.leastBad hlinks
        have htable : s.entries = [] := by simpa using hempty
        have hlast : last = [] := by
          rw [← h.table, htable]
          rfl
        rw [if_pos rfl, hl]
        refine ⟨h, fun idx hidx => ?_, iff_of_false nofun hpos⟩
        cases hidx
        exact ⟨linkIndex_lt_of_mem_snapshot (mem_of_minBy hl), fun hne => absurd hlast hne⟩
      | false =>
        obtain ⟨hinv, hmem⟩ := h.pick hempty clock frameLen
        refine ⟨hinv, fun idx hidx => ?_, iff_of_false nofun hpos⟩
        cases hidx
        exact ⟨h.bound _ hmem, fun _ => hmem⟩

/-- One call keeps the invariant, with the scores of a refresh when it is one. -/
theorem inv_step (h : Inv n last s) (op : Op F n) : Inv n (rescored last op) (s.step op) := by
  cases op with
  | refresh links cfg peerPrimaryIndex => exact inv_refresh s links cfg peerPrimaryIndex
  | updateCongestion now counters => exact h.of_eq (indices_rescale _) rfl
  | updateDelivery now samples => exact h.of_eq (indices_rescale _) rfl
  | noteQueueFull now idx => exact h.of_eq rfl rfl
  | noteSendFailed now idx => exact h.of_eq rfl rfl
  | selectFast clock frameLen => exact (h.selectFast clock frameLen).1
  | select links clock frameLen => exact (h.select links clock frameLen).1

theorem inv_run (h : Inv n last s) (ops : List (Op F n)) :
    Inv n (lastScored last ops) (s.run ops) := by
  induction ops generalizing last s with
  | nil => exact h
  | cons op ops ih => exact ih (inv_step h op)

end Inv

/-- `tunnel::pick_link`: the fast path under the scheduler's lock, else a snapshot
of the links and the full choice under a new lock; other calls may come between. -/
def pickLink (s : Scheduler F) (clock clock' : Scheduler.PickClock) (frameLen : UInt64)
    (between : List (Op F n)) (links : Fin n → Link F) : Scheduler F × Option Nat :=
  match s.selectFast n clock frameLen with
  | (s, some idx) => (s, some idx)
  | (s, none) => (s.run between).select (snapshot links) clock' frameLen

/-- The fast path agrees with the full choice wherever it answers. -/
theorem select_of_selectFast {s s' : Scheduler F} {clock : Scheduler.PickClock}
    {frameLen : UInt64} {idx : Nat} (h : s.selectFast n clock frameLen = (s', some idx))
    (links : Fin n → Link F) : s.select (snapshot links) clock frameLen = (s', some idx) := by
  unfold Scheduler.selectFast at h
  split at h
  case isTrue => exact nomatch h
  case isFalse hpos =>
    rw [Scheduler.select, if_neg fun hnil => hpos (snapshot_eq_nil.mp hnil)]
    split at h
    case h_1 => exact h
    case h_2 =>
      dsimp only
      split at h
      · exact nomatch h
      case isFalse hempty =>
        rw [if_neg hempty]
        exact h

/-- In every reachable state of a scheduler for `n` links, and whatever happens
between the two halves of `pick_link`: it returns nothing only without links, else
one of the links, and one that scored at the last refresh if any did; a primary is
always one that scored; and the fast path never differs from the full choice. -/
theorem pickLink_target (ops between : List (Op F n)) (clock clock' : Scheduler.PickClock)
    (frameLen : UInt64) (links : Fin n → Link F) :
    let s := (Scheduler.new : Scheduler F).run ops
    let r := (pickLink s clock clock' frameLen between links).2
    let last := if (s.selectFast n clock frameLen).2.isSome then lastScored [] ops
      else lastScored [] (ops ++ between)
    (r = none ↔ n = 0) ∧
      (∀ idx, r = some idx → idx < n ∧ (last ≠ [] → idx ∈ last)) ∧
      (∀ p, s.primary = some p → p ∈ lastScored [] ops) ∧
      ∀ s' idx, s.selectFast n clock frameLen = (s', some idx) →
        ∀ links' : Fin n → Link F, s.select (snapshot links') clock frameLen = (s', some idx) := by
  intro s r last
  have hs : Inv n (lastScored [] ops) s := inv_run inv_new ops
  obtain ⟨hfast, hmem, hnone⟩ := hs.selectFast clock frameLen
  have hpick : (r = none ↔ n = 0) ∧
      ∀ idx, r = some idx → idx < n ∧ (last ≠ [] → idx ∈ last) := by
    cases hanswer : (s.selectFast n clock frameLen).2 with
    | some fast =>
        have hfound : fast ∈ lastScored [] ops := hmem fast hanswer
        have hr : r = some fast := by
          simp only [r, pickLink]
          rw [show s.selectFast n clock frameLen = (_, some fast) from Prod.ext rfl hanswer]
        have hlast : last = lastScored [] ops := by simp [last, hanswer]
        refine ⟨?_, ?_⟩
        · rw [hr]
          have hlt := hs.bound fast hfound
          exact iff_of_false nofun (by omega)
        · intro idx hidx
          cases hr.symm.trans hidx
          exact ⟨hs.bound _ hfound, fun _ => hlast ▸ hfound⟩
    | none =>
        have hr : r = (((s.selectFast n clock frameLen).1.run between).select (snapshot links)
            clock' frameLen).2 := by
          simp only [r, pickLink]
          rw [show s.selectFast n clock frameLen = (_, none) from Prod.ext rfl hanswer]
        have hlast : last = lastScored (lastScored [] ops) between := by
          simp [last, hanswer, lastScored, List.foldl_append]
        obtain ⟨-, hselected, hempty⟩ := (inv_run hfast between).select links clock' frameLen
        rw [hr, hlast]
        exact ⟨hempty, hselected⟩
  exact ⟨hpick.1, hpick.2, hs.primary, fun s' idx h links' => select_of_selectFast h links'⟩

end Mlvpn.Ports.Scheduling
