import Mlvpn.Ports.DeliveryPhases
import Mlvpn.Ports.SwrrShare

/-!
# A shortfall that all links share

`Scheduler::delivery_factor` divides a link's delivery factor by the best one, so that a
shortfall that every link shows is not taken for one link's fault.  The best one is sought
among all trackers: also those of links that are down or disabled, and so not in the table.
Such a tracker sees no shortfall, and its factor stays at 1 or grows back to it.  Against it
every link of the table falls short, though they all do alike.

## Main results

* `consistent_run`: after any sequence of calls the weights of the table and the published
  `delivery_ppm` are those of the trackers as they are now.
* `deliveryFactor_eq_one_iff`: a link is not scaled down exactly when no tracker is above
  its own.
* `shared_shortfall_iff`: when the links of the table have equal factors, none of them is
  blamed exactly when no tracker outside the table is above theirs.
-/

namespace Mlvpn.Ports.SharedShortfall

open Verified Scheduling Scheduling.Scheduler
open Congestion (CongestionTracker)
open ConfigFile (SchedulerConfig)
open CongestionFilter (clamp_rat)
open Delivery (DeliverySample DeliveryTracker)
open DeliveryPhases (Phased)
open FecRecovery (Instant)
open TxDispatch (spillCandidates SPILL_MIN_DELIVERY_PPM)
open Verified.Floating (ofRat)

/-! ## The scheduler and the counters it publishes on -/

/-- The scheduler, and the `delivery_ppm` of every link's counters. -/
structure Published where
  sched : Scheduler ℚ
  deliveryPpm : List UInt32

namespace Published

/-- `Scheduler::new`, and counters as `TxCounters` starts them. -/
def start (n : Nat) : Published := ⟨.new, List.replicate n 1000000⟩

variable {n : Nat}

def step (x : Published) (op : Op ℚ n) : Published where
  sched := x.sched.step op
  deliveryPpm := match op with
    | .updateDelivery now samples => (x.sched.updateDelivery now (List.ofFn samples)).2
    | _ => x.deliveryPpm

def run (ops : List (Op ℚ n)) : Published := ops.foldl step (start n)

theorem run_sched (ops : List (Op ℚ n)) : (run ops).sched = (new : Scheduler ℚ).run ops := by
  induction ops using List.reverseRecOn with
  | nil => rfl
  | append_singleton ops op ih =>
    rw [run, Scheduler.run, List.foldl_concat, List.foldl_concat, ← run]
    exact congrArg (fun s => s.step op) ih

end Published

/-- A link's tracker factor; a tracker not made yet has the factor of a new one. -/
def trackerFactor (s : Scheduler ℚ) (idx : Nat) : ℚ :=
  match s.delivery[idx]? with
  | some t => t.factor
  | none => 1

/-- No link of the table is blamed for a shortfall: none is scaled down, none is left out
as a spill target, and the weights are base weights times congestion factors. -/
structure NotBlamed (x : Published) : Prop where
  factor : ∀ i ∈ indices x.sched.entries, x.sched.deliveryFactor i = 1
  spill : ∀ i ∈ indices x.sched.entries, ∀ free : List Nat, ∀ fromLink,
    i < free.length → i ≠ fromLink → 0 < free.getD i 0 →
      i ∈ spillCandidates free (x.deliveryPpm.map UInt32.toNat) fromLink
  weight : ∀ e ∈ x.sched.entries,
    e.effectiveWeight = e.baseWeight * x.sched.congestionFactor e.linkIndex

/-! ## What calls keep -/

/-- What a round of picking leaves alone. -/
def fixed (e : SwrrEntry ℚ) : Nat × ℚ × ℚ := (e.linkIndex, e.baseWeight, e.effectiveWeight)

/-- The factors and the weights are as before. -/
structure Keeps (s s' : Scheduler ℚ) : Prop where
  factors : SameFactors s s'
  weights : s'.entries.map fixed = s.entries.map fixed

theorem Keeps.refl (s : Scheduler ℚ) : Keeps s s := ⟨⟨rfl, rfl⟩, rfl⟩

theorem keeps_pick (s : Scheduler ℚ) (clock : PickClock) (frameLen : UInt64) :
    Keeps s (s.swrrPickUnderCap clock frameLen).1 := by
  have hskip : ∀ (s' : Scheduler ℚ) (eligible : List Nat),
      SameFactors s' (s'.skipPenalized clock.penalty eligible).1 ∧
        (s'.skipPenalized clock.penalty eligible).1.entries = s'.entries := by
    intro s' eligible
    unfold skipPenalized
    split
    · exact ⟨⟨rfl, rfl⟩, rfl⟩
    · exact ⟨⟨rfl, rfl⟩, rfl⟩
  have hround := pickAmong_map (F := ℚ) (f := fixed) fun _ _ => rfl
  unfold swrrPickUnderCap
  dsimp only
  generalize checkCaps clock frameLen 0 s.entries s.rateLimits = capped
  obtain ⟨hfactors, hentries⟩ := hskip { s with rateLimits := capped.2 } capped.1
  generalize { s with rateLimits := capped.2 }.skipPenalized clock.penalty capped.1 = skipped
    at hfactors hentries ⊢
  obtain ⟨s', eligible⟩ := skipped
  dsimp only at hfactors hentries ⊢
  rw [hentries]
  refine ⟨⟨hfactors.congestion, hfactors.delivery⟩, ?_⟩
  cases eligible with
  | nil => exact hround s.entries _ _
  | cons first rest => exact hround s.entries first rest

theorem keeps_choice {s s' : Scheduler ℚ} {clock : PickClock} {frameLen : UInt64} {ready : Prop}
    [Decidable ready] (h : s' = if ready then (s.swrrPickUnderCap clock frameLen).1 else s) :
    Keeps s s' := by
  rw [h]
  split
  · exact keeps_pick s clock frameLen
  · exact .refl s

/-! ## Weights and counters are up to date -/

/-- What `update_delivery` publishes for a link. -/
def ppm (s : Scheduler ℚ) (idx : Nat) : UInt32 :=
  Floating.toU32 (Floating.round (s.deliveryFactor idx * ofRat 1000000))

/-- The trackers are sound and there is one for every link or for none; the weights and the
counters are theirs. -/
structure Consistent (n : Nat) (x : Published) : Prop where
  phased : ∀ t ∈ x.sched.delivery, Phased t
  count : x.sched.delivery = [] ∨ x.sched.delivery.length = n
  weights : ∀ e ∈ x.sched.entries,
    e.effectiveWeight = e.baseWeight * x.sched.linkFactor e.linkIndex
  published : ∀ i < n, x.deliveryPpm[i]? = some (ppm x.sched i)

section

variable {n : Nat} {x x' : Published}

theorem deliveryFactor_congr {s s' : Scheduler ℚ} (h : s'.delivery = s.delivery) :
    s'.deliveryFactor = s.deliveryFactor := by
  funext idx
  unfold deliveryFactor
  rw [h]

theorem Consistent.keeps (h : Consistent n x) (hkeeps : Keeps x.sched x'.sched)
    (hppm : x'.deliveryPpm = x.deliveryPpm) : Consistent n x' where
  phased := by rw [hkeeps.factors.delivery]; exact h.phased
  count := by rw [hkeeps.factors.delivery]; exact h.count
  weights e he := by
    obtain ⟨old, hold, heq⟩ := List.mem_map.mp (hkeeps.weights ▸ List.mem_map_of_mem he)
    obtain ⟨hidx, hbase, hweight⟩ : old.linkIndex = e.linkIndex ∧
        old.baseWeight = e.baseWeight ∧ old.effectiveWeight = e.effectiveWeight := by
      simpa only [fixed, Prod.mk.injEq] using heq
    rw [← hidx, ← hbase, ← hweight, hkeeps.factors.linkFactor_eq]
    exact h.weights old hold
  published i hi := by
    rw [hppm, h.published i hi, ppm, ppm, deliveryFactor_congr hkeeps.factors.delivery]

theorem weights_rescale (s : Scheduler ℚ) : ∀ e ∈ s.rescale.entries,
    e.effectiveWeight = e.baseWeight * s.rescale.linkFactor e.linkIndex := by
  intro e he
  obtain ⟨old, -, rfl⟩ := List.mem_map.mp he
  rfl

theorem phased_default : Phased (.default : DeliveryTracker ℚ) := DeliveryPhases.phased_track []

theorem Consistent.updateDelivery (h : Consistent n x) (now : Instant)
    (samples : Fin n → Option (DeliverySample ℚ)) :
    Consistent n (x.step (.updateDelivery now samples)) where
  phased t ht := by
    obtain ⟨i, hi, rfl⟩ := List.mem_mapIdx.mp ht
    have hold : Phased (growTo x.sched.delivery (List.ofFn samples).length .default)[i] := by
      rcases List.mem_append.mp (List.getElem_mem hi) with hmem | hmem
      · exact h.phased _ hmem
      · rw [List.eq_of_mem_replicate hmem]
        exact phased_default
    split
    case h_1 sample _ => exact hold.tick (DeliveryPhases.observe_tick (c := ⟨now, sample⟩))
    case h_2 => exact hold
  count := by
    refine Or.inr ?_
    show (List.mapIdx _ _).length = n
    rw [List.length_mapIdx, growTo, List.length_append, List.length_replicate, List.length_ofFn]
    rcases h.count with hnil | hlen
    · rw [hnil, List.length_nil]
      omega
    · omega
  weights := weights_rescale _
  published i hi := by
    show ((List.range (List.ofFn samples).length).map _)[i]? = _
    rw [List.getElem?_map, List.getElem?_range (by rwa [List.length_ofFn])]
    rfl

theorem Consistent.refresh (h : Consistent n x) (links : Fin n → Link ℚ)
    (cfg : SchedulerConfig ℚ) (peerPrimaryIndex : Option Nat) :
    Consistent n (x.step (.refresh links cfg peerPrimaryIndex)) := by
  have hsame := (sameFactors_refreshFromScores x.sched (upIndices (List.ofFn links)) cfg
    peerPrimaryIndex).1
  refine ⟨?_, ?_, ?_, ?_⟩
  · show ∀ t ∈ (x.sched.refreshFromScores _ cfg peerPrimaryIndex).delivery, Phased t
    rw [hsame.delivery]
    exact h.phased
  · show (x.sched.refreshFromScores _ cfg peerPrimaryIndex).delivery = [] ∨
      (x.sched.refreshFromScores _ cfg peerPrimaryIndex).delivery.length = n
    rw [hsame.delivery]
    exact h.count
  · intro e he
    obtain ⟨l, -, rfl⟩ := List.mem_map.mp he
    rfl
  · intro i hi
    show x.deliveryPpm[i]? = some (ppm (x.sched.refresh _ cfg peerPrimaryIndex) i)
    have hdelivery : (x.sched.refresh (List.ofFn links) cfg peerPrimaryIndex).delivery =
      x.sched.delivery := hsame.delivery
    rw [h.published i hi, ppm, ppm, deliveryFactor_congr hdelivery]

theorem Consistent.step (h : Consistent n x) (op : Op ℚ n) : Consistent n (x.step op) := by
  cases op with
  | refresh links cfg peerPrimaryIndex => exact h.refresh links cfg peerPrimaryIndex
  | updateDelivery now samples => exact h.updateDelivery now samples
  | updateCongestion now counters =>
    exact ⟨h.phased, h.count, weights_rescale _, fun i hi => h.published i hi⟩
  | noteQueueFull now idx => exact h.keeps ⟨⟨rfl, rfl⟩, rfl⟩ rfl
  | noteSendFailed now idx => exact h.keeps ⟨⟨rfl, rfl⟩, rfl⟩ rfl
  | selectFast clock frameLen =>
    exact h.keeps (keeps_choice (step_selectFast x.sched clock frameLen)) rfl
  | select links clock frameLen =>
    exact h.keeps (keeps_choice (step_select x.sched links clock frameLen)) rfl

theorem consistent_run (ops : List (Op ℚ n)) : Consistent n (Published.run ops) := by
  induction ops using List.reverseRecOn with
  | nil =>
    refine ⟨nofun, Or.inl rfl, nofun, fun i hi => ?_⟩
    show (List.replicate n (1000000 : UInt32))[i]? = _
    rw [List.getElem?_replicate_of_lt hi]
    show some (1000000 : UInt32) = some (Floating.toU32 (Floating.round ((1 : ℚ) * 1000000)))
    decide +kernel
  | append_singleton ops op ih =>
    rw [Published.run, List.foldl_concat]
    exact ih.step op

end

/-! ## The best tracker -/

theorem foldl_max_le_iff {xs : List ℚ} {a b : ℚ} :
    xs.foldl max a ≤ b ↔ a ≤ b ∧ ∀ x ∈ xs, x ≤ b := by
  induction xs generalizing a with
  | nil => simp
  | cons x xs ih =>
    rw [List.foldl_cons, ih, max_le_iff, List.forall_mem_cons, and_assoc]

/-- A factor that is clamped relative to the best is 1 when it is the best. -/
theorem relative_eq_one_iff {factor best : ℚ} (hbest : 0 < best) :
    max (1 / 1000) (min (factor / best) 1) = 1 ↔ best ≤ factor := by
  rw [← one_le_div hbest]
  constructor
  · intro hone
    by_contra hlt
    have hmin : min (factor / best) 1 < 1 := (min_le_left _ _).trans_lt (not_le.mp hlt)
    exact (max_lt (by norm_num) hmin).ne hone
  · intro hle
    rw [min_eq_right hle]
    exact max_eq_right (by norm_num)

section

variable {n : Nat} {x : Published}

theorem Consistent.factor_pos (h : Consistent n x) {t : DeliveryTracker ℚ}
    (ht : t ∈ x.sched.delivery) : 0 < t.factor := by
  have hlow := (h.phased t ht).low
  linarith

/-- A link is not scaled down exactly when no tracker is above its own. -/
theorem deliveryFactor_eq_one_iff (h : Consistent n x) {i : Nat} (hi : i < n) :
    x.sched.deliveryFactor i = 1 ↔
      ∀ j < n, trackerFactor x.sched j ≤ trackerFactor x.sched i := by
  rcases h.count with hnil | hlen
  · -- No tracker has been made yet.
    have hnone : ∀ j : Nat, x.sched.delivery[j]? = none := by
      intro j
      rw [hnil]
      exact List.getElem?_nil
    refine iff_of_true ?_ fun j _ => ?_
    · rw [deliveryFactor, hnone]
      rfl
    · rw [trackerFactor, trackerFactor, hnone, hnone]
  · have hi' : i < x.sched.delivery.length := hlen ▸ hi
    have htracker : ∀ j (hj : j < x.sched.delivery.length),
        trackerFactor x.sched j = x.sched.delivery[j].factor := by
      intro j hj
      rw [trackerFactor, List.getElem?_eq_getElem hj]
    have hpos := h.factor_pos (List.getElem_mem hi')
    set best := (x.sched.delivery.map (·.factor)).foldl max 0 with hbest
    have hbestPos : 0 < best := hpos.trans_le
      ((foldl_max_le_iff.mp hbest.ge).2 _ (List.mem_map_of_mem (List.getElem_mem hi')))
    have hfloor : (1 / 1000 : ℚ) ≤ 1 := by norm_num
    have hfactor : x.sched.deliveryFactor i =
        max (1 / 1000) (min (x.sched.delivery[i].factor / best) 1) := by
      rw [deliveryFactor, List.getElem?_eq_getElem hi']
      exact (if_neg (not_le.mpr hbestPos)).trans (clamp_rat _ hfloor)
    rw [hfactor, relative_eq_one_iff hbestPos, hbest, foldl_max_le_iff, htracker i hi']
    constructor
    · intro hall j hj
      rw [htracker j (hlen ▸ hj)]
      exact hall.2 _ (List.mem_map_of_mem (List.getElem_mem _))
    · intro hall
      refine ⟨hpos.le, fun factor hmem => ?_⟩
      obtain ⟨t, ht, rfl⟩ := List.mem_map.mp hmem
      obtain ⟨j, hj, rfl⟩ := List.mem_iff_getElem.mp ht
      rw [← htracker j hj]
      exact hall j (hlen ▸ hj)

/-- A link that is not scaled down is a spill target wherever its queue has room. -/
theorem Consistent.mem_spillCandidates (h : Consistent n x) {i : Nat} (hi : i < n)
    (hone : x.sched.deliveryFactor i = 1) {free : List Nat} {fromLink : Nat}
    (hlt : i < free.length) (hne : i ≠ fromLink) (hroom : 0 < free.getD i 0) :
    i ∈ spillCandidates free (x.deliveryPpm.map UInt32.toNat) fromLink := by
  have hppm : (x.deliveryPpm.map UInt32.toNat)[i]? = some 1000000 := by
    rw [List.getElem?_map, h.published i hi, ppm, hone]
    decide +kernel
  rw [spillCandidates, List.mem_insertionSort, List.mem_filter, hppm]
  exact ⟨List.mem_range.mpr hlt, decide_eq_true ⟨hne, hroom, by decide⟩⟩

theorem Consistent.notBlamed (h : Consistent n x) (hbound : ∀ i ∈ indices x.sched.entries, i < n)
    (hone : ∀ i ∈ indices x.sched.entries, x.sched.deliveryFactor i = 1) : NotBlamed x where
  factor := hone
  spill i hi _ _ hlt hne hroom := h.mem_spillCandidates (hbound i hi) (hone i hi) hlt hne hroom
  weight e he := by
    rw [h.weights e he, linkFactor, hone _ (List.mem_map_of_mem he), mul_one]

end

/-- After any sequence of calls that leaves the links of the table with one tracker factor:
none of them is blamed exactly when no tracker outside the table is above it. -/
theorem shared_shortfall_iff {n : Nat} (ops : List (Op ℚ n)) (factor : ℚ)
    (hshared : ∀ i ∈ indices (Published.run ops).sched.entries,
      trackerFactor (Published.run ops).sched i = factor) :
    NotBlamed (Published.run ops) ↔
      (indices (Published.run ops).sched.entries = [] ∨
        ∀ j < n, j ∉ indices (Published.run ops).sched.entries →
          trackerFactor (Published.run ops).sched j ≤ factor) := by
  have hconsistent := consistent_run ops
  have hinv := inv_run (inv_new (F := ℚ) (n := n)) ops
  rw [← Published.run_sched] at hinv
  have hbound : ∀ i ∈ indices (Published.run ops).sched.entries, i < n :=
    fun i hi => hinv.bound i (hinv.table ▸ hi)
  constructor
  · intro hnot
    by_cases hnil : indices (Published.run ops).sched.entries = []
    · exact Or.inl hnil
    · obtain ⟨i, hi⟩ := List.exists_mem_of_ne_nil _ hnil
      refine Or.inr fun j hj _ => ?_
      rw [← hshared i hi]
      exact (deliveryFactor_eq_one_iff hconsistent (hbound i hi)).mp (hnot.factor i hi) j hj
  · intro hbest
    refine hconsistent.notBlamed hbound fun i hi => ?_
    refine (deliveryFactor_eq_one_iff hconsistent (hbound i hi)).mpr fun j hj => ?_
    rw [hshared i hi]
    by_cases hin : j ∈ indices (Published.run ops).sched.entries
    · exact (hshared j hin).le
    · rcases hbest with hnil | hle
      · exact absurd hi (by rw [hnil]; exact List.not_mem_nil)
      · exact hle j hj hin

/-- Two links that are up and one that is not, all with the same measurements. -/
def twoOfThree : Fin 3 → Link ℚ := fun i =>
  { state := if i = 2 then .Down else .Up
    adminDisabled := false
    weight := 1
    bandwidthCapMbps := none
    rttMs := some 50
    jitterMs := some 20
    lossRate := none
    rxThroughputMbps := none
    activeBandwidthMbps := none
    consecutiveMisses := 0 }

/-- A fifth of what the first two links were offered was delivered; `third` is the sample of
the other one. -/
def fifthDelivered (third : Option (DeliverySample ℚ)) : Op ℚ 3 :=
  .updateDelivery 1000000000 fun i => if i = 2 then third else some ⟨10, 2, 1000000000⟩

/-- The third link shows the shortfall too, and then goes down. -/
def downAfter : List (Op ℚ 3) :=
  [fifthDelivered (some ⟨10, 2, 1000000000⟩), .refresh twoOfThree swrrConfig none]

/-- The third link is down before the shortfall. -/
def downBefore : List (Op ℚ 3) :=
  [.refresh twoOfThree swrrConfig none, fifthDelivered none]

theorem shared_shortfall_down_after :
    (∀ i ∈ indices (Published.run downAfter).sched.entries,
        trackerFactor (Published.run downAfter).sched i = 9 / 50) ∧
      NotBlamed (Published.run downAfter) := by
  have hshared : ∀ i ∈ indices (Published.run downAfter).sched.entries,
      trackerFactor (Published.run downAfter).sched i = 9 / 50 := by
    decide +kernel
  exact ⟨hshared, (shared_shortfall_iff downAfter (9 / 50) hshared).mpr (by decide +kernel)⟩

/-- Against the link that is down both others are scaled down, and with room everywhere it is
the only one left to spill to. -/
theorem shared_shortfall_down_before :
    indices (Published.run downBefore).sched.entries = [0, 1] ∧
      (∀ i ∈ [0, 1], trackerFactor (Published.run downBefore).sched i = 9 / 50 ∧
        (Published.run downBefore).sched.deliveryFactor i = 9 / 50) ∧
      spillCandidates [128, 128, 128]
        ((Published.run downBefore).deliveryPpm.map UInt32.toNat) 0 = [2] := by
  decide +kernel

end Mlvpn.Ports.SharedShortfall
