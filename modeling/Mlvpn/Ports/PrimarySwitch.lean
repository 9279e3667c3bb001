import Mlvpn.Ports.SchedulingPick
import Mlvpn.Verified.Streak

/-!
# When the primary is replaced

`refresh_from_scores` in `primary_link_mode`, with scores read as exact rationals.  The
scheduler keeps one candidate and a count; over any sequence of refreshes that count is the
streak of refreshes at which the same primary was beaten by the same link.  The first such
refresh only records the candidate and does not look at `up_threshold`, so a streak of one
never suffices.

## Main results

* `tracking_step`, `tracking_run`: candidate and count are the streak.
* `refreshed_primary_iff`: the primary after a refresh, by the log of the refreshes.
* `primary_switch_iff`: where that agrees with `up_threshold`.
-/

namespace Mlvpn.Ports.Scheduling

open Verified Extremum Streak
open ConfigFile (SchedulerConfig)
open Verified.Floating (ofRat)

/-! ## Scores -/

/-- The links that are up, with their scores. -/
abbrev Scores := List (Nat × ℚ)

def scoreOf (ups : Scores) (idx : Nat) : Option ℚ := (ups.find? fun l => l.1 = idx).map Prod.snd

/-- The link with the greatest score, the last of several. -/
def best (ups : Scores) : Option (Nat × ℚ) := maxBy (fun a b => compare a.2 b.2) ups

/-- The best of the others, if it scores more than 1.2 times the primary. -/
def favoured (ups : Scores) (primary : Nat) : Option Nat :=
  match scoreOf ups primary, best (ups.filter fun l => l.1 ≠ primary) with
  | some score, some other => if 6 / 5 * score < other.2 then some other.1 else none
  | _, _ => none

theorem scoreOf_isSome_iff {ups : Scores} {idx : Nat} :
    (scoreOf ups idx).isSome ↔ idx ∈ ups.map Prod.fst := by
  rw [scoreOf, Option.isSome_map, List.find?_isSome]
  constructor
  · rintro ⟨l, hl, hidx⟩
    rw [← of_decide_eq_true hidx]
    exact List.mem_map_of_mem hl
  · intro h
    obtain ⟨l, hl, hidx⟩ := List.mem_map.mp h
    exact ⟨l, hl, decide_eq_true hidx⟩

theorem favoured_ne {ups : Scores} {primary idx : Nat} (h : favoured ups primary = some idx) :
    idx ≠ primary := by
  unfold favoured at h
  split at h
  case h_1 score other _ hother =>
    split at h
    · cases h
      have hmem := mem_of_maxBy hother
      simpa using (List.mem_filter.mp hmem).2
    · exact nomatch h
  case h_2 => exact nomatch h

/-! ## One refresh -/

/-- The primary that `n` refreshes in a row call for: the link that was favoured at each of
the last `n` refreshes of the log, over this primary, and else this primary. -/
def Successor (n primary : Nat) (log : List (Option Nat × Option Nat)) (next : Nat) : Prop :=
  List.replicate n (some primary, some next) <:+ log ∨
    next = primary ∧ ∀ other, ¬List.replicate n (some primary, some other) <:+ log

theorem successor_iff_of_none {n : Nat} (hn : 0 < n) (primary : Nat)
    (log : List (Option Nat × Option Nat)) (q : Option Nat) (next : Nat) :
    Successor n primary (log ++ [(q, none)]) next ↔ next = primary := by
  have hnone : ∀ other, ¬List.replicate n (some primary, some other) <:+ log ++ [(q, none)] := by
    intro other
    rw [replicate_suffix_iff, streak_append_of_ne (by simp)]
    omega
  exact ⟨fun h => h.elim (fun h => absurd h (hnone next)) And.left, fun h => .inr ⟨h, hnone⟩⟩

theorem successor_iff_of_streak {n primary other k : Nat} {log : List (Option Nat × Option Nat)}
    (hstreak : streak (some primary, some other) log = k) (hk : 0 < k) (hn : 0 < n) (next : Nat) :
    Successor n primary log next ↔ next = if n ≤ k then other else primary := by
  -- only the last link favoured has a streak
  have honly : ∀ o, List.replicate n (some primary, some o) <:+ log ↔ o = other ∧ n ≤ k := by
    intro o
    rw [replicate_suffix_iff]
    by_cases ho : o = other
    · subst ho
      rw [hstreak]
      exact ⟨fun h => ⟨rfl, h⟩, And.right⟩
    · rw [streak_eq_zero_of_pos (a := (some primary, some other)) (by omega) (by simp [ho])]
      exact ⟨fun h => absurd h (by omega), fun h => absurd h.1 ho⟩
  rw [Successor, honly]
  simp only [honly]
  by_cases hreached : n ≤ k
  · rw [if_pos hreached]
    exact ⟨fun h => h.elim And.left fun h => absurd ⟨rfl, hreached⟩ (h.2 other),
      fun h => .inl ⟨h, hreached⟩⟩
  · rw [if_neg hreached]
    exact ⟨fun h => h.elim (fun h => absurd h.2 hreached) And.left,
      fun h => .inr ⟨h, fun o ho => hreached ho.2⟩⟩

namespace Scheduler

/-- What `refresh_from_scores` makes of candidate and primary while the primary is up. -/
inductive Reviewed (upThreshold : UInt32) (primary : Nat) (s : Scheduler ℚ) :
    Option Nat → Scheduler ℚ → Prop where
  | unrivalled : Reviewed upThreshold primary s none { s with candidate := none }
  | recorded {other : Nat} (hnew : ∀ count, s.candidate ≠ some (other, count)) :
      Reviewed upThreshold primary s (some other) { s with candidate := some (other, 1) }
  | counted {other : Nat} {count : UInt32} (hknown : s.candidate = some (other, count))
      (hshort : ¬upThreshold ≤ count + 1) :
      Reviewed upThreshold primary s (some other) { s with candidate := some (other, count + 1) }
  | replaced {other : Nat} {count : UInt32} (hknown : s.candidate = some (other, count))
      (hreached : upThreshold ≤ count + 1) :
      Reviewed upThreshold primary s (some other)
        { s.setPrimary (some other) with candidate := none }

theorem margin_eq (score : ℚ) : score * (ofRat 1 + PRIMARY_SWITCH_MARGIN) = 6 / 5 * score := by
  show score * (1 + 1 / 5) = 6 / 5 * score
  ring

theorem reviewPrimary_reviewed {s : Scheduler ℚ} {ups : Scores} {primary : Nat} {score : ℚ}
    (hprimary : s.primary = some primary) (hscore : scoreOf ups primary = some score)
    (upThreshold : UInt32) :
    Reviewed upThreshold primary s (favoured ups primary)
      (s.reviewPrimary ups upThreshold score) := by
  have hothers : ups.filter (fun l => some l.1 ≠ s.primary) =
      ups.filter fun l => l.1 ≠ primary := by
    rw [hprimary]
    simp only [ne_eq, Option.some.injEq]
  have hbest : maxBy (fun a b : Nat × ℚ => Floating.totalCmp a.2 b.2)
      (ups.filter fun l => some l.1 ≠ s.primary) = best (ups.filter fun l => l.1 ≠ primary) := by
    rw [hothers]
    rfl
  unfold reviewPrimary favoured
  rw [hbest, hscore]
  cases best (ups.filter fun l => l.1 ≠ primary) with
  | none => exact .unrivalled
  | some other =>
    dsimp only
    rw [margin_eq]
    by_cases hmargin : 6 / 5 * score < other.2
    case neg =>
      rw [if_neg hmargin, if_neg hmargin]
      exact .unrivalled
    rw [if_pos hmargin, if_pos hmargin]
    cases hcandidate : s.candidate with
    | none =>
      refine .recorded fun count h => ?_
      rw [hcandidate] at h
      exact nomatch h
    | some candidate =>
      obtain ⟨idx, count⟩ := candidate
      dsimp only
      by_cases hidx : idx = other.1
      case neg =>
        rw [if_neg hidx]
        refine .recorded fun count' h => ?_
        rw [hcandidate] at h
        cases h
        exact hidx rfl
      subst hidx
      rw [if_pos rfl]
      by_cases hreached : upThreshold ≤ count + 1
      · rw [if_pos hreached]
        exact .replaced hcandidate hreached
      · rw [if_neg hreached]
        exact .counted hcandidate hreached

/-- Candidate and count say how long the primary has been beaten by one and the same link,
where `log` has the primary and the link favoured over it at each refresh. -/
structure Tracking (upThreshold : UInt32) (log : List (Option Nat × Option Nat))
    (s : Scheduler ℚ) : Prop where
  idle : s.candidate = none →
    ∀ primary other, s.primary = some primary → streak (some primary, some other) log = 0
  counting : ∀ other count, s.candidate = some (other, count) →
    ∃ primary, s.primary = some primary ∧
      streak (some primary, some other) log = count.toNat ∧ 0 < count.toNat ∧
      (count.toNat = 1 ∨ count.toNat < upThreshold.toNat)

section Tracking

variable {upThreshold : UInt32} {log : List (Option Nat × Option Nat)} {s : Scheduler ℚ}

/-- A refresh at which no link was favoured ends every streak. -/
theorem tracking_of_none {s' : Scheduler ℚ} (primary : Option Nat)
    (hcandidate : s'.candidate = none) : Tracking upThreshold (log ++ [(primary, none)]) s' where
  idle := fun _ _ _ _ => streak_append_of_ne (by simp) log
  counting := fun _ _ h => by
    rw [hcandidate] at h
    exact nomatch h

variable {primary other : Nat}

section

variable (h : Tracking upThreshold log s)
include h

/-- A link that is not the candidate has no streak. -/
theorem Tracking.fresh
    (hprimary : s.primary = some primary) (hnew : ∀ count, s.candidate ≠ some (other, count)) :
    streak (some primary, some other) log = 0 := by
  cases hcandidate : s.candidate with
  | none => exact h.idle hcandidate primary other hprimary
  | some candidate =>
    obtain ⟨idx, count⟩ := candidate
    obtain ⟨p, hp, hstreak, hpos, -⟩ := h.counting idx count hcandidate
    rw [hprimary] at hp
    cases hp
    refine streak_eq_zero_of_pos (a := (some primary, some idx)) (by omega) fun heq => ?_
    have hidx : other = idx := Option.some.inj (Prod.mk.inj heq).2
    subst hidx
    exact hnew count hcandidate

/-- The count does not wrap. -/
theorem Tracking.toNat_succ {count : UInt32}
    (hknown : s.candidate = some (other, count)) : (count + 1).toNat = count.toNat + 1 := by
  obtain ⟨-, -, -, -, hbound⟩ := h.counting other count hknown
  have hlt := upThreshold.toNat_lt
  rw [UInt32.toNat_add, UInt32.toNat_one, Nat.mod_eq_of_lt (by omega)]

/-- A known rival that is best again is on a streak one longer than the count. -/
theorem Tracking.streak_succ {count : UInt32}
    (hprimary : s.primary = some primary) (hknown : s.candidate = some (other, count)) :
    streak (some primary, some other) (log ++ [(some primary, some other)]) = count.toNat + 1 ∧
      0 < count.toNat := by
  obtain ⟨p, hp, hstreak, hpos, -⟩ := h.counting other count hknown
  rw [hprimary] at hp
  cases hp
  rw [streak_append_self, hstreak]
  exact ⟨rfl, hpos⟩

theorem Tracking.review
    (hprimary : s.primary = some primary) {rival : Option Nat} {s' : Scheduler ℚ}
    (hreview : Reviewed upThreshold primary s rival s') (hne : ∀ o, rival = some o → o ≠ primary) :
    Tracking upThreshold (log ++ [(some primary, rival)]) s' ∧
      ∀ next, s'.primary = some next ↔
        Successor (max 2 upThreshold.toNat) primary (log ++ [(some primary, rival)]) next := by
  have hn : 0 < max 2 upThreshold.toNat := by omega
  cases hreview with
  | unrivalled =>
    refine ⟨tracking_of_none _ rfl, fun next => ?_⟩
    rw [successor_iff_of_none hn, hprimary, Option.some.injEq, eq_comm]
  | @recorded other hnew =>
    -- a streak of one, which nothing is compared with
    have hone : streak (some primary, some other) (log ++ [(some primary, some other)]) = 1 := by
      rw [streak_append_self, h.fresh hprimary hnew]
    refine ⟨⟨fun hnone => (nomatch hnone), ?_⟩, ?_⟩
    · intro o c hcandidate
      cases hcandidate
      exact ⟨primary, hprimary, hone, Nat.one_pos, .inl rfl⟩
    · intro next
      rw [successor_iff_of_streak hone Nat.one_pos hn, if_neg (by omega), hprimary,
        Option.some.injEq, eq_comm]
  | @counted other count hknown hshort =>
    have hnat := h.toNat_succ hknown
    have hlt : count.toNat + 1 < upThreshold.toNat := by
      rw [UInt32.le_iff_toNat_le, hnat] at hshort
      omega
    obtain ⟨hnext, hpos⟩ := h.streak_succ hprimary hknown
    refine ⟨⟨fun hnone => (nomatch hnone), ?_⟩, ?_⟩
    · intro o c hcandidate
      cases hcandidate
      exact ⟨primary, hprimary, by rw [hnext, hnat], by omega, .inr (by omega)⟩
    · intro next
      rw [successor_iff_of_streak hnext (by omega) hn, if_neg (by omega), hprimary,
        Option.some.injEq, eq_comm]
  | @replaced other count hknown hreached =>
    have hnat := h.toNat_succ hknown
    have hle : upThreshold.toNat ≤ count.toNat + 1 := by
      rwa [UInt32.le_iff_toNat_le, hnat] at hreached
    obtain ⟨hnext, hpos⟩ := h.streak_succ hprimary hknown
    refine ⟨⟨fun _ p o hp => ?_, fun _ _ hcandidate => (nomatch hcandidate)⟩, ?_⟩
    · cases hp
      exact streak_append_of_ne (fun heq => hne other rfl
        (Option.some.inj (Prod.mk.inj heq).1).symm) log
    · intro next
      rw [successor_iff_of_streak hnext (by omega) hn, if_pos (by omega)]
      exact ⟨fun h => (Option.some.inj h).symm, fun h => congrArg some h.symm⟩

end

end Tracking

/-! ## Runs -/

/-- What a refresh is called with. -/
structure RefreshCall where
  scores : Scores
  peerPrimaryIndex : Option Nat

/-- A refresh, with the primary before it and the link favoured over that. -/
def refreshStep (cfg : SchedulerConfig ℚ) (s : Scheduler ℚ) (call : RefreshCall) :
    Scheduler ℚ × (Option Nat × Option Nat) :=
  (s.refreshFromScores call.scores cfg call.peerPrimaryIndex,
    (s.primary, s.primary.bind (favoured call.scores)))

/-- The scheduler after these refreshes. -/
def refreshed (cfg : SchedulerConfig ℚ) (calls : List RefreshCall) : Scheduler ℚ :=
  Mealy.run (refreshStep cfg) new calls

/-- At each of these refreshes the primary before it and the link favoured over that. -/
def rivals (cfg : SchedulerConfig ℚ) (calls : List RefreshCall) :
    List (Option Nat × Option Nat) :=
  (Mealy.log (refreshStep cfg) new calls).map (·.2)

theorem refreshed_append (cfg : SchedulerConfig ℚ) (calls : List RefreshCall)
    (call : RefreshCall) : refreshed cfg (calls ++ [call]) =
      (refreshed cfg calls).refreshFromScores call.scores cfg call.peerPrimaryIndex := by
  rw [refreshed, Mealy.run_append]
  rfl

theorem rivals_append (cfg : SchedulerConfig ℚ) (calls : List RefreshCall) (call : RefreshCall) :
    rivals cfg (calls ++ [call]) = rivals cfg calls ++
      [((refreshed cfg calls).primary, (refreshed cfg calls).primary.bind
        (favoured call.scores))] := by
  rw [rivals, Mealy.log_append, List.map_append]
  rfl

/-- Primary selection is on, and not left to the peer. -/
structure Decides (cfg : SchedulerConfig ℚ) : Prop where
  mode : cfg.primaryLinkMode = true
  own : cfg.followPeerPrimary = false

variable {cfg : SchedulerConfig ℚ}

/-- In that mode a refresh has two cases. -/
theorem refreshFromScores_eq (hcfg : Decides cfg) (s : Scheduler ℚ)
    (ups : Scores) (peerPrimaryIndex : Option Nat) :
    s.refreshFromScores ups cfg peerPrimaryIndex =
      match s.primary.bind (scoreOf ups) with
      | none => { s.setPrimary ((best ups).map Prod.fst) with candidate := none }
      | some score => s.reviewPrimary ups cfg.upThreshold score := by
  have hscore : (s.primary.bind fun idx => (ups.find? fun l => l.1 = idx).map Prod.snd) =
      s.primary.bind (scoreOf ups) := rfl
  unfold refreshFromScores
  rw [hcfg.own, hcfg.mode, if_neg (by decide), if_neg (by decide)]
  dsimp only
  rw [hscore]
  cases s.primary.bind (scoreOf ups) with
  | none => rfl
  | some score => rfl

theorem tracking_step (hcfg : Decides cfg) {log : List (Option Nat × Option Nat)} {s : Scheduler ℚ}
    (h : Tracking cfg.upThreshold log s) (call : RefreshCall) :
    Tracking cfg.upThreshold (log ++ [(refreshStep cfg s call).2]) (refreshStep cfg s call).1 := by
  show Tracking _ (log ++ [(s.primary, s.primary.bind (favoured call.scores))])
    (s.refreshFromScores call.scores cfg call.peerPrimaryIndex)
  rw [refreshFromScores_eq hcfg]
  cases hprimary : s.primary with
  | none => exact tracking_of_none none rfl
  | some primary =>
    cases hscore : scoreOf call.scores primary with
    | none =>
      have hnone : favoured call.scores primary = none := by
        unfold favoured
        rw [hscore]
      rw [Option.bind_some, Option.bind_some, hscore, hnone]
      exact tracking_of_none _ rfl
    | some score =>
      rw [Option.bind_some, Option.bind_some, hscore]
      exact (h.review hprimary (reviewPrimary_reviewed hprimary hscore cfg.upThreshold)
        fun o ho => favoured_ne ho).1

theorem tracking_run (hcfg : Decides cfg) (calls : List RefreshCall) :
    Tracking cfg.upThreshold (rivals cfg calls) (refreshed cfg calls) := by
  induction calls using List.reverseRecOn with
  | nil =>
    exact ⟨fun _ _ _ h => (nomatch h), fun _ _ h => (nomatch h)⟩
  | append_singleton calls call ih =>
    rw [rivals_append, refreshed_append]
    exact tracking_step hcfg ih call

/-- A primary that is up yields after `up_threshold` refreshes, but never after one. -/
theorem refreshed_primary_iff (hcfg : Decides cfg) (calls : List RefreshCall) (call : RefreshCall)
    {primary : Nat} (hprimary : (refreshed cfg calls).primary = some primary)
    (hup : primary ∈ call.scores.map Prod.fst) (next : Nat) :
    (refreshed cfg (calls ++ [call])).primary = some next ↔
      Successor (max 2 cfg.upThreshold.toNat) primary (rivals cfg (calls ++ [call])) next := by
  obtain ⟨score, hscore⟩ := Option.isSome_iff_exists.mp (scoreOf_isSome_iff.mpr hup)
  rw [refreshed_append, rivals_append, refreshFromScores_eq hcfg, hprimary, Option.bind_some,
    Option.bind_some, hscore]
  exact ((tracking_run hcfg calls).review hprimary
    (reviewPrimary_reviewed hprimary hscore cfg.upThreshold) fun o ho => favoured_ne ho).2 next

/-- In every reachable state: a primary that is not up is replaced by the best link at once;
and the next primary is the one that `up_threshold` refreshes in a row call for exactly if
that threshold is at least two, or the link favoured now, if any, was favoured over the same
primary at the refresh before. -/
theorem primary_switch_iff (cfg : SchedulerConfig ℚ) (hcfg : Decides cfg)
    (hthreshold : 1 ≤ cfg.upThreshold) (calls : List RefreshCall) (call : RefreshCall) :
    ((∀ primary, (refreshed cfg calls).primary = some primary →
        primary ∉ call.scores.map Prod.fst) →
      (refreshed cfg (calls ++ [call])).primary = (best call.scores).map Prod.fst) ∧
    ∀ primary, (refreshed cfg calls).primary = some primary →
      primary ∈ call.scores.map Prod.fst →
      ((∀ next, (refreshed cfg (calls ++ [call])).primary = some next ↔
          Successor cfg.upThreshold.toNat primary (rivals cfg (calls ++ [call])) next) ↔
        2 ≤ cfg.upThreshold ∨ ∀ other, favoured call.scores primary = some other →
          [(some primary, some other)] <:+ rivals cfg calls) := by
  constructor
  · intro hdown
    have hscore : (refreshed cfg calls).primary.bind (scoreOf call.scores) = none := by
      rw [Option.bind_eq_none_iff]
      intro primary hprimary
      have hnot := mt scoreOf_isSome_iff.mp (hdown primary hprimary)
      exact Option.not_isSome_iff_eq_none.mp hnot
    rw [refreshed_append, refreshFromScores_eq hcfg, hscore]
    rfl
  · intro primary hprimary hup
    simp only [refreshed_primary_iff hcfg calls call hprimary hup]
    have hone : 1 ≤ cfg.upThreshold.toNat := UInt32.le_iff_toNat_le.mp hthreshold
    rw [UInt32.le_iff_toNat_le]
    show _ ↔ 2 ≤ cfg.upThreshold.toNat ∨ _
    by_cases htwo : 2 ≤ cfg.upThreshold.toNat
    · rw [max_eq_right htwo]
      exact ⟨fun _ => .inl htwo, fun _ _ => Iff.rfl⟩
    -- a threshold of one: the count that is needed is two
    have hthreshold_eq : cfg.upThreshold.toNat = 1 := by omega
    rw [hthreshold_eq, show max 2 1 = 2 from rfl, rivals_append, hprimary, Option.bind_some]
    cases hfavoured : favoured call.scores primary with
    | none =>
        refine ⟨fun _ => .inr fun _ h => (nomatch h), fun _ next => ?_⟩
        rw [successor_iff_of_none (by decide), successor_iff_of_none (by decide)]
    | some other =>
        have hstreak := streak_append_self (some primary, some other) (rivals cfg calls)
        have hne : other ≠ primary := favoured_ne hfavoured
        have hbefore : [(some primary, some other)] <:+ rivals cfg calls ↔
            2 ≤ streak (some primary, some other) (rivals cfg calls) + 1 := by
          rw [← List.replicate_one, replicate_suffix_iff]
          omega
        simp only [successor_iff_of_streak hstreak (Nat.succ_pos _) Nat.two_pos,
          successor_iff_of_streak hstreak (Nat.succ_pos _) Nat.one_pos,
          if_pos (Nat.succ_le_succ (Nat.zero_le _)), Option.some.injEq, forall_eq', hbefore]
        by_cases hagain : 2 ≤ streak (some primary, some other) (rivals cfg calls) + 1
        · rw [if_pos hagain]
          exact ⟨fun _ => .inr hagain, fun _ _ => Iff.rfl⟩
        · rw [if_neg hagain]
          refine ⟨fun h => absurd ((h primary).mp rfl).symm hne, fun h => ?_⟩
          exact absurd h (by omega)

/-- A configuration that decides on a primary. -/
def deciding (upThreshold : UInt32) : SchedulerConfig ℚ :=
  { (ConfigFile.serverWith { mtu := none, address6 := none }).scheduler with
    primaryLinkMode := true, upThreshold }

/-- Link 0 leads, and then link 1 `n` times, by more than the margin. -/
def overtaken (n : Nat) : List RefreshCall :=
  ⟨[(0, 5), (1, 1)], none⟩ :: List.replicate n ⟨[(0, 5), (1, 7)], none⟩

theorem primary_switch_third :
    (refreshed (deciding 3) (overtaken 2)).primary = some 0 ∧
      (refreshed (deciding 3) (overtaken 2 ++ [⟨[(0, 5), (1, 7)], none⟩])).primary = some 1 := by
  have hprimary : (refreshed (deciding 3) (overtaken 2)).primary = some 0 := by decide +kernel
  refine ⟨hprimary, ?_⟩
  refine (((primary_switch_iff (deciding 3) ⟨rfl, rfl⟩ (by decide) (overtaken 2)
    ⟨[(0, 5), (1, 7)], none⟩).2 0 hprimary (by decide)).mpr (.inl (by decide)) 1).mpr ?_
  exact .inl (by decide +kernel)

/-- With a threshold of one, link 1 has been favoured once and should be the primary. -/
theorem primary_not_switched :
    ConfigFile.validateScheduler (deciding 1) = .ok () ∧
      (refreshed (deciding 1) (overtaken 0)).primary = some 0 ∧
      Successor 1 0 (rivals (deciding 1) (overtaken 0 ++ [⟨[(0, 5), (1, 7)], none⟩])) 1 ∧
      (refreshed (deciding 1) (overtaken 0 ++ [⟨[(0, 5), (1, 7)], none⟩])).primary = some 0 :=
  ⟨by decide +kernel, by decide +kernel, .inl (by decide +kernel), by decide +kernel⟩

end Scheduler

end Mlvpn.Ports.Scheduling
