import Mlvpn.Ports.AutoReport

/-!
# The evidence behind events

What one observation does to the link it is about, as seven cases: nothing, an event that
opens, and with an event open its end, a calm moment, an escalation, a reminder, or a moment of
trouble without any of these.  From these cases follows what the lazily set timestamps of a
link say about the observations made so far: `hot_since` and `calm_since` are the beginnings of
streaks that last until now, and `last_dump` is no earlier than any reminder.

## Main results

* `observed`: the seven cases.
* `inv_step`: the timestamps against everything observed so far.
* `events_sustained`: events open and end on sustained evidence only.
-/

namespace Mlvpn.Ports.EventEvidence

open Verified PastTime
open AutoReport hiding Class
open FecRecovery (Instant)

section

variable {F : Type*} [Floating F]

/-! ## One observation -/

/-- The link's event with the loss of this observation taken in. -/
def peaked (self : EventTracker F) (i : Observation) (ev : Event F) : Event F :=
  { ev with peakLossPct := max ev.peakLossPct (self.pct i) }

/-- The event that an observation opens. -/
def fresh (self : EventTracker F) (i : Observation) (cls : AutoReport.Class) : Event F :=
  ⟨i.id, cls, i.now, self.pct i, none, i.now⟩

/-- Whether an event that this observation opens files a ticket. -/
def submits (self : EventTracker F) (i : Observation) (cls : AutoReport.Class) : Bool :=
  (self.heated i).submit self.cfg i.now (self.othersRecentlyOpened i.now i.link) cls

/-- The event that opens is on a ticket, its own or another link's. -/
def covered (self : EventTracker F) (i : Observation) (cls : AutoReport.Class) : Bool :=
  submits self i cls || self.othersRecentlyOpened i.now i.link

/-- The link's state with an event that has just opened. -/
def openedTrack (self : EventTracker F) (i : Observation) (cls : AutoReport.Class) : LinkTrack F :=
  let st := self.heated i
  { st with
    event := some (fresh self i cls)
    lastSubmit := if covered self i cls = true then some i.now else st.lastSubmit
    lastDegradedSubmit :=
      if covered self i cls = true ∧ cls = .Degraded then some i.now else st.lastDegradedSubmit
    suppressedDegraded :=
      if cls = .Degraded then
        if covered self i cls = true then 0 else st.suppressedDegraded + 1
      else st.suppressedDegraded }

/-- The count of suppressed events that is told with the event. -/
def reported (self : EventTracker F) (i : Observation) (cls : AutoReport.Class) : UInt32 :=
  let st := self.heated i
  if cls = .Degraded ∧ covered self i cls = false then st.suppressedDegraded + 1
  else st.suppressedDegraded

/-- What a ticket with which an event opens says: nothing stands against it. -/
theorem free_of_submits {self : EventTracker F} {i : Observation} {cls : AutoReport.Class}
    (h : submits self i cls = true) :
    LinkTrack.within i.now (self.track i.link).lastSubmit RETICKET_GAP = false ∧
      (cls = .Degraded → LinkTrack.within i.now (self.track i.link).lastDegradedSubmit
        self.cfg.degradedTicketGap = false) := by
  change (!self.othersRecentlyOpened i.now i.link &&
    !LinkTrack.within i.now (self.track i.link).lastSubmit RETICKET_GAP &&
    !(decide (cls = .Degraded) && LinkTrack.within i.now (self.track i.link).lastDegradedSubmit
      self.cfg.degradedTicketGap)) = true at h
  rw [Bool.and_eq_true, Bool.and_eq_true] at h
  refine ⟨Bool.not_eq_true' _ ▸ h.1.2, fun hdegraded => ?_⟩
  have hlimited := h.2
  rw [decide_eq_true hdegraded, Bool.true_and] at hlimited
  exact Bool.not_eq_true' _ ▸ hlimited

/-- What an observation does to its link, and what it answers. -/
inductive Observed (self : EventTracker F) (i : Observation) :
    LinkTrack F → Outcome F → Prop
  | idle (hnone : (self.track i.link).event = none) (hactive : self.active i = none) :
      Observed self i (self.heated i) .Quiet
  | opened {cls : AutoReport.Class} {info : EventInfo F} (hnone : (self.track i.link).event = none)
      (hactive : self.active i = some cls) (hcls : info.cls = cls)
      (hreported : info.suppressedDegraded = reported self i cls) :
      Observed self i (openedTrack self i cls) (.Dump (submits self i cls) .Opened info)
  | ended {ev : Event F} {prev : Prev F} {id : String} {duration : Nat} {peak : F}
      (hev : (self.track i.link).event = some ev)
      (hcalm : (conditions i.obs self.trig).calm = true)
      (hclear : self.trig.clear ≤ i.now - ev.calmSince.getD i.now) :
      Observed self i { self.heated i with event := none, prev := some prev }
        (.Ended id ev.cls duration peak)
  | calming {ev : Event F} (hev : (self.track i.link).event = some ev)
      (hcalm : (conditions i.obs self.trig).calm = true) :
      Observed self i
        { self.heated i with
          event := some { peaked self i ev with calmSince := some (ev.calmSince.getD i.now) } }
        .Quiet
  | escalated {ev : Event F} {cls : AutoReport.Class} {info : EventInfo F}
      (hev : (self.track i.link).event = some ev)
      (htrouble : (conditions i.obs self.trig).calm = false)
      (hworse : ev.cls.severity < cls.severity) (hcls : info.cls = cls) :
      Observed self i
        { self.heated i with
          event := some { peaked self i ev with calmSince := none, cls, lastDump := i.now }
          lastSubmit := some i.now }
        (.Dump true .Escalated info)
  | reminded {ev : Event F} {info : EventInfo F} (hev : (self.track i.link).event = some ev)
      (htrouble : (conditions i.obs self.trig).calm = false)
      (hcooldown : self.cfg.dumpCooldown ≤ i.now - ev.lastDump) :
      Observed self i
        { self.heated i with
          event := some { peaked self i ev with calmSince := none, lastDump := i.now } }
        (.Dump false .Ongoing info)
  | troubled {ev : Event F} (hev : (self.track i.link).event = some ev)
      (htrouble : (conditions i.obs self.trig).calm = false) :
      Observed self i
        { self.heated i with event := some { peaked self i ev with calmSince := none } } .Quiet

/-- The state and the answer of the part of `observe` for a link without an open event. -/
theorem observeClosed_eq (self : EventTracker F) (i : Observation) (cls : AutoReport.Class) :
    ((self.heated i).observeClosed self.cfg i.now i.id
        (self.othersRecentlyOpened i.now i.link) (some cls) (self.pct i)).1 =
      openedTrack self i cls ∧
    ∃ info : EventInfo F, info.cls = cls ∧ info.suppressedDegraded = reported self i cls ∧
      ((self.heated i).observeClosed self.cfg i.now i.id
        (self.othersRecentlyOpened i.now i.link) (some cls) (self.pct i)).2.1 =
        .Dump (submits self i cls) .Opened info := by
  unfold LinkTrack.observeClosed openedTrack reported covered submits
  dsimp only
  generalize (self.heated i).submit self.cfg i.now (self.othersRecentlyOpened i.now i.link) cls
    = submit
  generalize self.othersRecentlyOpened i.now i.link = others
  cases submit with
  | true =>
    cases cls with
    | _ => exact ⟨rfl, _, rfl, rfl, rfl⟩
  | false =>
    cases others with
    | _ => cases cls with
      | _ => exact ⟨rfl, _, rfl, rfl, rfl⟩

theorem observed (self : EventTracker F) (i : Observation) :
    Observed self i (self.observeLink i).1 (self.observe i).2 := by
  show Observed self i (self.observeLink i).1 (self.observeLink i).2.1
  cases hevent : (self.heated i).event with
  | none =>
    rw [observeLink_of_none hevent]
    cases hactive : self.active i with
    | none => exact .idle hevent hactive
    | some cls =>
      obtain ⟨hst, info, hcls, hreported, houtcome⟩ := observeClosed_eq self i cls
      rw [hst, houtcome]
      exact .opened hevent hactive hcls hreported
  | some ev =>
    rw [observeLink_of_some hevent]
    unfold LinkTrack.observeOpen
    dsimp only
    split
    case isTrue hcalm =>
      split
      case isTrue hclear => exact .ended hevent hcalm hclear
      case isFalse => exact .calming hevent hcalm
    case isFalse hcalm =>
      have htrouble : (conditions i.obs self.trig).calm = false := Bool.not_eq_true _ ▸ hcalm
      split
      case h_1 cls hfilter =>
        have hworse := (Option.filter_eq_some_iff.mp hfilter).2
        exact .escalated hevent htrouble (of_decide_eq_true hworse) rfl
      case h_2 =>
        unfold LinkTrack.ongoing
        split
        case isTrue hbump =>
          have hcooldown := ((Bool.and_eq_true _ _).mp hbump).2
          exact .reminded hevent htrouble (of_decide_eq_true hcooldown)
        case isFalse => exact .troubled hevent htrouble

/-! ## Streaks of observations -/

/-- The link was hot: it lost enough for an event. -/
def Hot (trig : TriggerCfg F) (o : Observation) : Prop := (conditions o.obs trig).hot = true

/-- The link was calm, which is neither an outage nor a flap. -/
def Calm (trig : TriggerCfg F) (o : Observation) : Prop :=
  (conditions o.obs trig).calm = true ∧ (conditions o.obs trig).outage = false ∧
    (conditions o.obs trig).flap = false

theorem calm_of_conditions {trig : TriggerCfg F} {o : Observation}
    (h : (conditions o.obs trig).calm = true) : Calm trig o := by
  refine ⟨h, ?_⟩
  have hparts := (Bool.and_eq_true _ _).mp ((Bool.and_eq_true _ _).mp h).1
  exact ⟨Bool.not_eq_true' _ ▸ hparts.1, Bool.not_eq_true' _ ▸ hparts.2⟩

end

section

variable {F : Type*} {P : Observation → Prop} {link : String} {t : Instant}
  {log : List (Observation × Outcome F)} {e : Observation × Outcome F}

/-- Every observation of the link since one at `t` has met `P`. -/
def Streak (link : String) (P : Observation → Prop) (t : Instant)
    (log : List (Observation × Outcome F)) : Prop :=
  Since (fun e => e.1.link = link → P e.1)
    (fun e => e.1.link = link ∧ P e.1 ∧ e.1.now = t) log

theorem Streak.other (h : Streak link P t log) (hother : e.1.link ≠ link) :
    Streak link P t (log ++ [e]) :=
  since_snoc.mpr (Or.inr ⟨h, fun hsame => absurd hsame hother⟩)

/-- One more observation makes a streak longer, or is the first of one. -/
theorem streak_getD {since : Option Instant} (h : ∀ t, since = some t → Streak link P t log)
    (hlink : e.1.link = link) (hP : P e.1) : Streak link P (since.getD e.1.now) (log ++ [e]) := by
  cases since with
  | none => exact since_snoc.mpr (Or.inl ⟨hlink, hP, rfl⟩)
  | some t => exact since_snoc.mpr (Or.inr ⟨h t rfl, fun _ => hP⟩)

def Outcome.reminds : Outcome F → Bool
  | .Dump _ .Ongoing _ => true
  | _ => false

def Opened (link : String) (e : Observation × Outcome F) : Prop :=
  e.1.link = link ∧ e.2.opens = true

def Closed (link : String) (e : Observation × Outcome F) : Prop :=
  e.1.link = link ∧ e.2.ends = true

/-- A dump of the event that goes on, which is never submitted. -/
def Reminder (link : String) (e : Observation × Outcome F) : Prop :=
  e.1.link = link ∧ Outcome.reminds e.2 = true

/-- An event of the link has opened, and none has ended since. -/
def IsOpen (link : String) (log : List (Observation × Outcome F)) : Prop :=
  Since (fun e => ¬Closed link e) (Opened link) log

theorem reminders_snoc {bound : Instant}
    (h : ∀ x ∈ log, Reminder link x → x.1.now ≤ bound) (he : Reminder link e → e.1.now ≤ bound) :
    ∀ x ∈ log ++ [e], Reminder link x → x.1.now ≤ bound := by
  intro x hx hreminder
  rcases List.mem_append.mp hx with hx | hx
  · exact h x hx hreminder
  · rw [List.mem_singleton.mp hx] at hreminder ⊢
    exact he hreminder

end

section

variable {F : Type*} [Floating F] {trig : TriggerCfg F} {link : String} {st : LinkTrack F}
  {log : List (Observation × Outcome F)} {e : Observation × Outcome F}

/-- What the state of a link says about the observations so far. -/
structure LinkInv (trig : TriggerCfg F) (link : String) (log : List (Observation × Outcome F))
    (st : LinkTrack F) : Prop where
  hot : ∀ t, st.hotSince = some t → Streak link (Hot trig) t log
  calm : ∀ ev, st.event = some ev → ∀ t, ev.calmSince = some t → Streak link (Calm trig) t log
  closed : st.event = none → ¬IsOpen link log
  reminders : ∀ ev, st.event = some ev → ∀ e ∈ log, Reminder link e → e.1.now ≤ ev.lastDump

theorem linkInv_default (link : String) :
    LinkInv trig link ([] : List (Observation × Outcome F)) .default where
  hot := nofun
  calm := nofun
  closed := fun _ => not_since_nil
  reminders := nofun

theorem LinkInv.other (h : LinkInv trig link log st) (hother : e.1.link ≠ link) :
    LinkInv trig link (log ++ [e]) st where
  hot := fun t ht => (h.hot t ht).other hother
  calm := fun ev hev t ht => (h.calm ev hev t ht).other hother
  closed := fun hnone hopen => by
    rcases since_snoc.mp hopen with hopened | ⟨hopen, -⟩
    · exact hother hopened.1
    · exact h.closed hnone hopen
  reminders := fun ev hev x hx hreminder => by
    rcases List.mem_append.mp hx with hx | hx
    · exact h.reminders ev hev x hx hreminder
    · rw [List.mem_singleton.mp hx] at hreminder
      exact absurd hreminder.1 hother

variable {self : EventTracker F} {i : Observation}

/-- The streak of hot observations, with one more observation. -/
theorem heated_hot (outcome : Outcome F) (h : LinkInv self.trig i.link log (self.track i.link))
    (t : Instant) (ht : (self.heated i).hotSince = some t) :
    Streak i.link (Hot self.trig) t (log ++ [(i, outcome)]) := by
  change (if (conditions i.obs self.trig).hot = true then _ else none) = some t at ht
  by_cases hhot : (conditions i.obs self.trig).hot = true
  · rw [if_pos hhot, Option.some_inj] at ht
    rw [← ht]
    exact streak_getD (e := (i, outcome)) h.hot rfl hhot
  · rw [if_neg hhot] at ht
    cases ht

variable {outcome : Outcome F}

/-- An observation of the link itself, case by case. -/
theorem LinkInv.own (h : LinkInv self.trig i.link log (self.track i.link))
    (hordered : ∀ x ∈ log, x.1.now ≤ i.now) (hobserved : Observed self i st outcome) :
    LinkInv self.trig i.link (log ++ [(i, outcome)]) st := by
  have hhot := heated_hot outcome h
  have hpast : ∀ x ∈ log, Reminder i.link x → x.1.now ≤ i.now := fun x hx _ => hordered x hx
  cases hobserved with
  | idle hnone hactive =>
    refine ⟨hhot, fun ev hev => ?_, fun _ hopen => ?_, fun ev hev => ?_⟩
    · exact absurd (hnone.symm.trans hev) (by simp)
    · rcases since_snoc.mp hopen with hopened | ⟨hopen, -⟩
      · cases hopened.2
      · exact h.closed hnone hopen
    · exact absurd (hnone.symm.trans hev) (by simp)
  | opened hnone hactive hcls hreported =>
    refine ⟨hhot, fun ev hev => ?_, nofun, fun ev hev => ?_⟩
    · cases hev
      nofun
    · cases hev
      exact reminders_snoc hpast nofun
  | ended hev hcalm hclear =>
    refine ⟨hhot, nofun, fun _ hopen => ?_, nofun⟩
    rcases since_snoc.mp hopen with hopened | ⟨-, hclosed⟩
    · cases hopened.2
    · exact hclosed ⟨rfl, rfl⟩
  | calming hev hcalm =>
    refine ⟨hhot, fun ev' hev' t ht => ?_, nofun, fun ev' hev' => ?_⟩
    · cases hev'
      cases ht
      exact streak_getD (e := (i, .Quiet)) (h.calm _ hev) rfl (calm_of_conditions hcalm)
    · cases hev'
      have hlast := h.reminders _ hev
      exact reminders_snoc hlast nofun
  | escalated hev htrouble hworse hcls =>
    refine ⟨hhot, fun ev' hev' => ?_, nofun, fun ev' hev' => ?_⟩
    · cases hev'
      nofun
    · cases hev'
      exact reminders_snoc hpast nofun
  | reminded hev htrouble hcooldown =>
    refine ⟨hhot, fun ev' hev' => ?_, nofun, fun ev' hev' => ?_⟩
    · cases hev'
      nofun
    · cases hev'
      exact reminders_snoc hpast fun _ => le_refl _
  | troubled hev htrouble =>
    refine ⟨hhot, fun ev' hev' => ?_, nofun, fun ev' hev' => ?_⟩
    · cases hev'
      nofun
    · cases hev'
      have hlast := h.reminders _ hev
      exact reminders_snoc hlast nofun

/-! ## Whole runs -/

def Inv (log : List (Observation × Outcome F)) (self : EventTracker F) : Prop :=
  ∀ link, LinkInv self.trig link log (self.track link)

/-- The observation is no earlier than those before it. -/
def InOrder (log : List (Observation × Outcome F)) (_ : EventTracker F) (i : Observation) : Prop :=
  ∀ e ∈ log, e.1.now ≤ i.now

theorem inv_step (log : List (Observation × Outcome F)) (self : EventTracker F)
    (i : Observation) (h : Inv log self) (hordered : InOrder log self i) :
    Inv (log ++ [(i, (self.observe i).2)]) (self.observe i).1 := by
  intro link
  show LinkInv self.trig link _ _
  rw [track_observe]
  by_cases hsame : link = i.link
  · rw [if_pos hsame, hsame]
    exact (h i.link).own hordered (observed self i)
  · rw [if_neg hsame]
    exact (h link).other (Ne.symm hsame)

/-! ## Sustained evidence -/

/-- An event of class Degraded opens. -/
def Outcome.opensDegraded : Outcome F → Prop
  | .Dump _ .Opened event => event.cls = .Degraded
  | _ => False

/-- Since an observation at least `gap` before this one, every observation of its link has met
`P`, this one included. -/
def Lasting (P : Observation → Prop) (gap : Nat) (log : List (Observation × Outcome F))
    (i : Observation) (outcome : Outcome F) : Prop :=
  ∃ t, t + gap ≤ i.now ∧ Streak i.link P t (log ++ [(i, outcome)])

/-- The evidence behind what one observation makes of events. -/
structure Sustained (log : List (Observation × Outcome F)) (self : EventTracker F)
    (i : Observation) : Prop where
  /-- An event opens only where none is open. -/
  single : (self.observe i).2.opens = true → ¬IsOpen i.link log
  /-- A degraded link has been hot for the time of confirmation. -/
  confirmed : Outcome.opensDegraded (self.observe i).2 →
    Lasting (Hot self.trig) CONFIRM log i (self.observe i).2
  /-- An event that stays open is no less severe than before. -/
  severity : ∀ link ev ev', (self.track link).event = some ev →
    ((self.observe i).1.track link).event = some ev' →
    ev'.openedAt = ev.openedAt ∧ ev'.id = ev.id ∧ ev.cls.severity ≤ ev'.cls.severity
  /-- Where an event ends, the link has been calm for the clear time. -/
  cleared : (self.observe i).2.ends = true →
    Lasting (Calm self.trig) self.trig.clear log i (self.observe i).2
  /-- Reminders of one event are the cooldown apart, and are not submitted. -/
  reminders : Outcome.reminds (self.observe i).2 = true →
    (self.observe i).2.submits = false ∧
    ∀ before e after, log = before ++ e :: after → Reminder i.link e →
      (∀ x ∈ after, ¬Closed i.link x) → e.1.now + self.cfg.dumpCooldown ≤ i.now

omit [Floating F] in
/-- A streak that is long enough is lasting evidence. -/
theorem lasting_of_streak {P : Observation → Prop} {gap : Nat} {t : Instant}
    (hordered : ∀ x ∈ log, x.1.now ≤ i.now) (hgap : gap ≤ i.now - t)
    (hstreak : Streak i.link P t (log ++ [(i, outcome)])) : Lasting P gap log i outcome := by
  refine ⟨t, Nat.add_le_of_le_sub' ?_ hgap, hstreak⟩
  obtain ⟨before, first, after, hlog, ⟨-, -, hfirst⟩, -⟩ := hstreak
  have hmem : first ∈ log ++ [(i, outcome)] := by
    rw [hlog]
    exact List.mem_append_right _ (List.mem_cons_self ..)
  rw [← hfirst]
  rcases List.mem_append.mp hmem with hmem | hmem
  · exact hordered first hmem
  · rw [List.mem_singleton.mp hmem]

/-- A class that is neither outage nor flap is one that has been confirmed. -/
theorem hot_of_active (h : self.active i = some .Degraded) :
    ∃ t, (self.heated i).hotSince = some t ∧ CONFIRM ≤ i.now - t := by
  unfold EventTracker.active at h
  dsimp only at h
  split at h
  · cases h
  · split at h
    · cases h
    · split at h
      case isTrue hconfirmed =>
        obtain ⟨t, ht, hlong⟩ := (Option.any_eq_true _ _).mp hconfirmed
        exact ⟨t, ht, of_decide_eq_true hlong⟩
      case isFalse => cases h

section

variable (hobserved : Observed self i st outcome)
include hobserved

/-- The event of the observed link stays the one it was, and grows no milder. -/
theorem severity_of_observed {ev ev' : Event F}
    (hev : (self.track i.link).event = some ev) (hev' : st.event = some ev') :
    ev'.openedAt = ev.openedAt ∧ ev'.id = ev.id ∧ ev.cls.severity ≤ ev'.cls.severity := by
  cases hobserved with
  | idle hnone hactive => exact absurd (hnone.symm.trans hev) (by simp)
  | opened hnone hactive hcls hreported => exact absurd (hnone.symm.trans hev) (by simp)
  | ended hbefore hcalm hclear => cases hev'
  | calming hbefore hcalm =>
    cases hbefore.symm.trans hev
    cases hev'
    exact ⟨rfl, rfl, le_refl _⟩
  | escalated hbefore htrouble hworse hcls =>
    cases hbefore.symm.trans hev
    cases hev'
    exact ⟨rfl, rfl, le_of_lt hworse⟩
  | reminded hbefore htrouble hcooldown =>
    cases hbefore.symm.trans hev
    cases hev'
    exact ⟨rfl, rfl, le_refl _⟩
  | troubled hbefore htrouble =>
    cases hbefore.symm.trans hev
    cases hev'
    exact ⟨rfl, rfl, le_refl _⟩

/-- What opens is an event of the class of trouble the link is in, where none is open. -/
theorem opened_of_opens (h : outcome.opens = true) :
    (self.track i.link).event = none ∧
      (Outcome.opensDegraded outcome → self.active i = some .Degraded) := by
  cases hobserved with
  | opened hnone hactive hcls hreported =>
    refine ⟨hnone, fun hdegraded => ?_⟩
    rw [hactive, ← hcls]
    exact congrArg some hdegraded
  | _ => cases h

/-- An event ends where the link has been calm for the clear time. -/
theorem calm_of_ends (h : outcome.ends = true) :
    ∃ ev, (self.track i.link).event = some ev ∧ Calm self.trig i ∧
      self.trig.clear ≤ i.now - ev.calmSince.getD i.now := by
  cases hobserved with
  | ended hev hcalm hclear => exact ⟨_, hev, calm_of_conditions hcalm, hclear⟩
  | _ => cases h

/-- A reminder comes a cooldown after the last dump of its event. -/
theorem cooldown_of_reminds (h : Outcome.reminds outcome = true) :
    outcome.submits = false ∧ ∃ ev, (self.track i.link).event = some ev ∧
      self.cfg.dumpCooldown ≤ i.now - ev.lastDump := by
  cases hobserved with
  | reminded hev htrouble hcooldown => exact ⟨rfl, _, hev, hcooldown⟩
  | _ => cases h

end

omit [Floating F] in
theorem opens_of_opensDegraded (h : Outcome.opensDegraded outcome) : outcome.opens = true := by
  cases outcome with
  | Dump submit kind event =>
    cases kind with
    | Opened => rfl
    | _ => cases h
  | _ => cases h

/-- A reminder at least `gap` after `last` is one at least `gap` after anything before that. -/
theorem add_le_of_last {first last now gap : Nat} (hfirst : first ≤ last)
    (hnow : first ≤ now) (hgap : gap ≤ now - last) : first + gap ≤ now := by
  omega

/-- The evidence behind one observation, from what the link's state says. -/
theorem sustained_of_inv (h : Inv log self) (hordered : InOrder log self i) :
    Sustained log self i where
  single hopens := (h i.link).closed (opened_of_opens (observed self i) hopens).1
  confirmed hopens := by
    have hactive := (opened_of_opens (observed self i) (opens_of_opensDegraded hopens)).2 hopens
    obtain ⟨t, ht, hlong⟩ := hot_of_active hactive
    exact lasting_of_streak hordered hlong (heated_hot _ (h i.link) t ht)
  severity link ev ev' hev hev' := by
    rw [track_observe] at hev'
    by_cases hsame : link = i.link
    · rw [if_pos hsame] at hev'
      rw [hsame] at hev
      exact severity_of_observed (observed self i) hev hev'
    · rw [if_neg hsame, hev] at hev'
      cases hev'
      exact ⟨rfl, rfl, le_refl _⟩
  cleared hends := by
    obtain ⟨ev, hev, hcalm, hclear⟩ := calm_of_ends (observed self i) hends
    refine lasting_of_streak hordered hclear ?_
    exact streak_getD (e := (i, _)) ((h i.link).calm ev hev) rfl hcalm
  reminders hreminds := by
    obtain ⟨hsubmits, ev, hev, hcooldown⟩ := cooldown_of_reminds (observed self i) hreminds
    refine ⟨hsubmits, fun before e after hlog hreminder _ => ?_⟩
    have hmem : e ∈ log := hlog ▸ List.mem_append_right _ (List.mem_cons_self ..)
    have hlast := (h i.link).reminders ev hev e hmem hreminder
    exact add_le_of_last hlast (hordered e hmem) hcooldown

/-- In every run of observations whose times do not go back: a link has at most one open event;
a degraded link's event opens after it has been hot for the time of confirmation; events do not
grow milder; an event ends after the link has been calm for the clear time; and the reminders of
one event are the cooldown apart. -/
theorem events_sustained {trig : TriggerCfg F} {cfg : TrackerCfg}
    {observations : List Observation}
    (hordered : observations.Pairwise fun i j => i.now ≤ j.now) :
    Mealy.Along EventTracker.observe Sustained [] (.new trig cfg) observations := by
  refine Mealy.along_of_invariant (I := Inv) (G := InOrder) inv_step ?_ ?_
    (Mealy.along_of_pairwise _ hordered)
  · exact fun log self i h hinOrder => sustained_of_inv h hinOrder
  · exact fun link => linkInv_default link

end

/-- At a second of the run, the link is up and loses a fifth. -/
def lossyAt (link : String) (second : Nat) : Observation :=
  ⟨second * 1000000000, UInt64.ofNat (1000 + second), link,
    ⟨none, 0, 300, 60, some 300000000000⟩⟩

/-- A link that loses a fifth, with an event that opens after half a minute, a reminder five
minutes later, and an end after five calm minutes. -/
theorem events_sustained_once :
    ((Mealy.log EventTracker.observe (.new testTrigger testTracker)
        [lossyAt "a" 0, lossyAt "a" 30, lossyAt "a" 330, calmAt "a" 340, calmAt "a" 640]).map
      fun e => (e.2.opens, Outcome.reminds e.2, e.2.ends)) =
      [(false, false, false), (true, false, false), (false, true, false),
        (false, false, false), (false, false, true)] ∧
    Mealy.Along EventTracker.observe Sustained [] (.new testTrigger testTracker)
      [lossyAt "a" 0, lossyAt "a" 30, lossyAt "a" 330, calmAt "a" 340, calmAt "a" 640] :=
  ⟨by decide +kernel, events_sustained (by decide)⟩

end Mlvpn.Ports.EventEvidence
