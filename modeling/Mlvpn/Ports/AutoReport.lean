import Mlvpn.Ports.FecRecovery
import Mlvpn.Verified.Floating
import Mlvpn.Verified.PastTime

/-!
# Automatic reports of outages

Port of `autoreport::EventTracker`: for every link a machine that opens an event, lets it grow
worse and ends it when the link has been calm for long enough, and that decides which events
file a ticket.  Three things keep an event from filing one: another link's event that opened
just before (its ticket is to do for both), a ticket of the same link in the last half hour,
and for degraded links a limit of their own.

Whether another link's event has a ticket is not asked, and an event that rides on another's
starts the half hour as if it had filed one itself.

## Main results

* `lastSubmit_observe`: which observations start the half hour.
* `outage_without_ticket`: why an outage opens without a ticket.
* `no_outage_unreported`: in runs in which outages ride only on events that have a ticket, and
  no link goes down again in the half hour after it rode, every outage is on some ticket.
-/

namespace Mlvpn.Ports.AutoReport

open Verified PastTime
open FecRecovery (Instant)
open Verified.Floating (ofRat)

/-- A degraded condition has to hold this long before an event opens. -/
def CONFIRM : Nat := 30000000000
def RETICKET_GAP : Nat := 1800000000000

/-! ## Conditions -/

/-- What the tracker reads of `TriggerCfg`. -/
structure TriggerCfg (F : Type*) where
  minProbes : Nat
  openMisses : Nat
  openPct : F
  closePct : F
  clear : Nat
  outageAfter : Nat
  warmup : Nat
  flapDowns : UInt32

structure TrackerCfg where
  dumpCooldown : Nat
  join : Nat
  degradedTicketGap : Nat

/-- Event class, ordered by severity. -/
inductive Class where
  | Degraded
  | Flap
  | Outage
deriving Repr, DecidableEq

def Class.severity : Class → Nat
  | .Degraded => 0
  | .Flap => 1
  | .Outage => 2

/-- One link at one instant. -/
structure LinkObs where
  downFor : Option Nat
  recentDowns : UInt32
  total : Nat
  missed : Nat
  windowAge : Option Nat

structure Conditions where
  outage : Bool
  flap : Bool
  hot : Bool
  calm : Bool

section

variable {F : Type*} [Floating F]

def LinkObs.lossPct (obs : LinkObs) : Option F :=
  if obs.total > 0 then some (ofRat obs.missed * ofRat 100 / ofRat obs.total) else none

def conditions (obs : LinkObs) (cfg : TriggerCfg F) : Conditions :=
  let outage : Bool := obs.downFor.any fun d => d > cfg.outageAfter
  let flap : Bool := cfg.flapDowns > 0 && obs.recentDowns ≥ cfg.flapDowns
  let warm : Bool := obs.windowAge.any fun a => a ≥ cfg.warmup
  let enough : Bool := obs.total ≥ cfg.minProbes
  let pct : F := obs.lossPct.getD (ofRat 0)
  -- A link that is not up has no meaningful loss percentage.
  let hot : Bool :=
    obs.downFor.isNone && warm && enough && obs.missed ≥ cfg.openMisses && cfg.openPct ≤ pct
  let calm : Bool := !outage && !flap && !(enough && cfg.closePct ≤ pct)
  { outage, flap, hot, calm }

end

/-! ## Events -/

inductive DumpKind where
  | Opened
  | Escalated
  | Ongoing
deriving Repr, DecidableEq

structure PrevSummary (F : Type*) where
  endedAgo : Nat
  duration : Nat
  peakLossPct : F
  cls : Class

structure EventInfo (F : Type*) where
  id : String
  cls : Class
  age : Nat
  peakLossPct : F
  suppressedDegraded : UInt32
  previous : Option (PrevSummary F)

inductive Outcome (F : Type*) where
  | Quiet
  | Dump (submit : Bool) (kind : DumpKind) (event : EventInfo F)
  | Ended (id : String) (cls : Class) (duration : Nat) (peakLossPct : F)

structure Event (F : Type*) where
  id : String
  cls : Class
  openedAt : Instant
  peakLossPct : F
  calmSince : Option Instant
  lastDump : Instant

structure Prev (F : Type*) where
  endedAt : Instant
  duration : Nat
  peakLossPct : F
  cls : Class

structure LinkTrack (F : Type*) where
  event : Option (Event F)
  hotSince : Option Instant
  lastSubmit : Option Instant
  lastDegradedSubmit : Option Instant
  suppressedDegraded : UInt32
  prev : Option (Prev F)

namespace LinkTrack

variable {F : Type*} [Floating F]

def default : LinkTrack F := ⟨none, none, none, none, 0, none⟩

/-- `EventTracker::info`, of the event that is open. -/
def info (st : LinkTrack F) (ev : Event F) (now : Instant) : EventInfo F where
  id := ev.id
  cls := ev.cls
  age := now - ev.openedAt
  peakLossPct := ev.peakLossPct
  suppressedDegraded := st.suppressedDegraded
  previous := st.prev.map fun p => ⟨now - p.endedAt, p.duration, p.peakLossPct, p.cls⟩

/-- `EventTracker::ongoing`; the last component says whether `dirty` is set. -/
def ongoing (st : LinkTrack F) (ev : Event F) (now : Instant) (cfg : TrackerCfg)
    (bumpDump : Bool) : LinkTrack F × Outcome F × Bool :=
  if bumpDump && now - ev.lastDump ≥ cfg.dumpCooldown then
    let ev := { ev with lastDump := now }
    let st := { st with event := some ev }
    (st, .Dump false .Ongoing (st.info ev now), false)
  else ({ st with event := some ev }, .Quiet, false)

/-- The part of `observe` for a link whose event is open. -/
def observeOpen (st : LinkTrack F) (ev : Event F) (trig : TriggerCfg F) (cfg : TrackerCfg)
    (now : Instant) (calm : Bool) (active : Option Class) (pct : F) :
    LinkTrack F × Outcome F × Bool :=
  let ev := { ev with peakLossPct := max ev.peakLossPct pct }
  if calm then
    let since := ev.calmSince.getD now
    let ev := { ev with calmSince := some since }
    if now - since ≥ trig.clear then
      let duration := now - ev.openedAt
      ({ st with event := none, prev := some ⟨now, duration, ev.peakLossPct, ev.cls⟩ },
        .Ended ev.id ev.cls duration ev.peakLossPct, true)
    else st.ongoing ev now cfg false
  else
    let ev := { ev with calmSince := none }
    match active.filter fun c => c.severity > ev.cls.severity with
    | some cls =>
        let ev := { ev with cls, lastDump := now }
        let st := { st with event := some ev, lastSubmit := some now }
        (st, .Dump true .Escalated (st.info ev now), true)
    | none => st.ongoing ev now cfg true

/-- `t` is less than `gap` ago. -/
def within (now : Instant) (t : Option Instant) (gap : Nat) : Bool := t.any fun t => now - t < gap

/-- `submit`: whether an event that opens files a ticket. -/
def submit (st : LinkTrack F) (cfg : TrackerCfg) (now : Instant) (othersRecentlyOpened : Bool)
    (cls : Class) : Bool :=
  let recentlyTicketed := within now st.lastSubmit RETICKET_GAP
  let degradedLimited := cls = .Degraded && within now st.lastDegradedSubmit cfg.degradedTicketGap
  !othersRecentlyOpened && !recentlyTicketed && !degradedLimited

/-- The part of `observe` for a link without an open event. -/
def observeClosed (st : LinkTrack F) (cfg : TrackerCfg) (now : Instant) (id : String)
    (othersRecentlyOpened : Bool) (active : Option Class) (pct : F) :
    LinkTrack F × Outcome F × Bool :=
  match active with
  | none => (st, .Quiet, false)
  | some cls =>
      let submit := st.submit cfg now othersRecentlyOpened cls
      let st := if !submit && !othersRecentlyOpened && cls = .Degraded then
          { st with suppressedDegraded := st.suppressedDegraded + 1 }
        else st
      let reportedSuppressed := st.suppressedDegraded
      let st := if submit || othersRecentlyOpened then
          let st := { st with lastSubmit := some now }
          if cls = .Degraded then
            { st with lastDegradedSubmit := some now, suppressedDegraded := 0 }
          else st
        else st
      let ev := ⟨id, cls, now, pct, none, now⟩
      let st := { st with event := some ev }
      (st, .Dump submit .Opened { st.info ev now with suppressedDegraded := reportedSuppressed },
        submit || othersRecentlyOpened)

end LinkTrack

/-! ## The tracker -/

structure EventTracker (F : Type*) where
  trig : TriggerCfg F
  cfg : TrackerCfg
  links : AList fun _ : String => LinkTrack F
  dirty : Bool

/-- The arguments of one call of `observe`. -/
structure Observation where
  now : Instant
  nowUnix : UInt64
  link : String
  obs : LinkObs

/-- `format!("{link}-{now_unix:x}")`. -/
def Observation.id (i : Observation) : String :=
  i.link ++ "-" ++ String.ofList (Nat.toDigits 16 i.nowUnix.toNat)

/-- An event is open that opened less than `join` ago. -/
def recentlyOpened {F : Type*} (now : Instant) (join : Nat) (t : LinkTrack F) : Bool :=
  t.event.any fun e => now - e.openedAt < join

namespace EventTracker

variable {F : Type*} [Floating F]

def new (trig : TriggerCfg F) (cfg : TrackerCfg) : EventTracker F := ⟨trig, cfg, ∅, false⟩

/-- `self.links.entry(link).or_default()`. -/
def track (self : EventTracker F) (link : String) : LinkTrack F :=
  (self.links.lookup link).getD .default

def othersRecentlyOpened (self : EventTracker F) (now : Instant) (link : String) : Bool :=
  self.links.entries.any fun e => e.1 ≠ link && recentlyOpened now self.cfg.join e.2

/-- The link's state with `hot_since` brought up to date. -/
def heated (self : EventTracker F) (i : Observation) : LinkTrack F :=
  let st := self.track i.link
  { st with
    hotSince := if (conditions i.obs self.trig).hot then some (st.hotSince.getD i.now) else none }

/-- `active`: the class of trouble the link is in. -/
def active (self : EventTracker F) (i : Observation) : Option Class :=
  let cond := conditions i.obs self.trig
  let confirmedHot : Bool := (self.heated i).hotSince.any fun t => i.now - t ≥ CONFIRM
  if cond.outage then some .Outage
  else if cond.flap then some .Flap
  else if confirmedHot then some .Degraded
  else none

def pct (self : EventTracker F) (i : Observation) : F :=
  if (conditions i.obs self.trig).outage then ofRat 100 else i.obs.lossPct.getD (ofRat 0)

/-- What `observe` does to the link's own state. -/
def observeLink (self : EventTracker F) (i : Observation) : LinkTrack F × Outcome F × Bool :=
  let st := self.heated i
  match st.event with
  | some ev => st.observeOpen ev self.trig self.cfg i.now (conditions i.obs self.trig).calm
      (self.active i) (self.pct i)
  | none => st.observeClosed self.cfg i.now i.id (self.othersRecentlyOpened i.now i.link)
      (self.active i) (self.pct i)

def observe (self : EventTracker F) (i : Observation) : EventTracker F × Outcome F :=
  let (st, outcome, dirty) := self.observeLink i
  ({ self with links := self.links.insert i.link st, dirty := self.dirty || dirty }, outcome)

end EventTracker

/-! ## Tickets and rides -/

section

variable {F : Type*}

def Outcome.submits : Outcome F → Bool
  | .Dump submit _ _ => submit
  | _ => false

def Outcome.opens : Outcome F → Bool
  | .Dump _ .Opened _ => true
  | _ => false

def Outcome.ends : Outcome F → Bool
  | .Ended _ _ _ _ => true
  | _ => false

/-- An outage that opens, and files no ticket. -/
def Outcome.opensOutageSilently : Outcome F → Bool
  | .Dump false .Opened event => event.cls = .Outage
  | _ => false

/-- A call with its outcome, and whether another link's event had just opened. -/
abbrev Entry (F : Type*) := Observation × Outcome F × Bool

def Filed (link : String) (e : Entry F) : Prop := e.1.link = link ∧ e.2.1.submits = true

/-- An event of the link opened beside another link's. -/
def Rode (link : String) (e : Entry F) : Prop :=
  e.1.link = link ∧ e.2.1.opens = true ∧ e.2.2 = true

def Calmed (link : String) (e : Entry F) : Prop := e.1.link = link ∧ e.2.1.ends = true

instance decidableFiled (link : String) : DecidablePred (Filed (F := F) link) :=
  fun _ => inferInstanceAs (Decidable (_ ∧ _))

instance decidableRode (link : String) : DecidablePred (Rode (F := F) link) :=
  fun _ => inferInstanceAs (Decidable (_ ∧ _))

instance decidableCalmed (link : String) : DecidablePred (Calmed (F := F) link) :=
  fun _ => inferInstanceAs (Decidable (_ ∧ _))

/-- A ticket was filed for the event that is open on the link, when it opened or later. -/
def Ticketed (log : List (Entry F)) (link : String) : Prop :=
  Since (fun e => ¬Calmed link e) (Filed link) log

instance decidableTicketed (log : List (Entry F)) (link : String) :
    Decidable (Ticketed log link) := inferInstanceAs (Decidable (Since _ _ _))

end

section

variable {F : Type*} [Floating F]

def audited (self : EventTracker F) (i : Observation) : EventTracker F × Outcome F × Bool :=
  ((self.observe i).1, (self.observe i).2, self.othersRecentlyOpened i.now i.link)

/-- Another link's event that is open, opened less than the join time ago and has a ticket. -/
def TicketBeside (log : List (Entry F)) (self : EventTracker F) (i : Observation) : Prop :=
  ∃ other ∈ self.links.entries, other.1 ≠ i.link ∧
    recentlyOpened i.now self.cfg.join other.2 = true ∧ Ticketed log other.1

/-- The link has ridden in the last half hour, and has filed no ticket since. -/
def RodeLately (log : List (Entry F)) (i : Observation) : Prop :=
  Since (fun e => ¬Filed i.link e)
    (fun e => Rode i.link e ∧ i.now - e.1.now < RETICKET_GAP) log

/-- An outage that opens beside another link's event does so beside one with a ticket; one that
opens alone does not open in the half hour after the link rode. -/
def Grounded (log : List (Entry F)) (self : EventTracker F) (i : Observation) : Prop :=
  (self.track i.link).event.isNone = true ∧ (conditions i.obs self.trig).outage = true →
    if self.othersRecentlyOpened i.now i.link = true then TicketBeside log self i
    else ¬RodeLately log i

/-- An outage that opens without a ticket is on one: the link's own of the last half hour, or
that of another link's event. -/
def Reported (log : List (Entry F)) (self : EventTracker F) (i : Observation) : Prop :=
  (self.observe i).2.opensOutageSilently = true →
    (∃ e ∈ log, Filed i.link e ∧ i.now - e.1.now < RETICKET_GAP) ∨ TicketBeside log self i

instance decidableTicketBeside (log : List (Entry F)) (self : EventTracker F)
    (i : Observation) : Decidable (TicketBeside log self i) :=
  inferInstanceAs (Decidable (∃ other ∈ self.links.entries, _ ∧ _ ∧ _))

instance decidableRodeLately (log : List (Entry F)) (i : Observation) :
    Decidable (RodeLately log i) := inferInstanceAs (Decidable (Since _ _ _))

instance decidableGrounded (log : List (Entry F)) (self : EventTracker F) (i : Observation) :
    Decidable (Grounded log self i) := inferInstanceAs (Decidable (_ → ite _ _ _))

instance decidableReported (log : List (Entry F)) (self : EventTracker F) (i : Observation) :
    Decidable (Reported log self i) := inferInstanceAs (Decidable (_ → _ ∨ _))

end

/-! ## One observation -/

section

variable {F : Type*}

variable (st : LinkTrack F) (cfg : TrackerCfg) (now : Instant) (id : String) (others : Bool)

theorem ongoing_lastSubmit (ev : Event F) (now : Instant) (cfg : TrackerCfg) (bumpDump : Bool) :
    (st.ongoing ev now cfg bumpDump).1.lastSubmit = st.lastSubmit ∧
      (st.ongoing ev now cfg bumpDump).2.1.submits = false ∧
      (st.ongoing ev now cfg bumpDump).2.1.opens = false := by
  unfold LinkTrack.ongoing
  split
  · exact ⟨rfl, rfl, rfl⟩
  · exact ⟨rfl, rfl, rfl⟩

theorem opens_of_silent {outcome : Outcome F} (h : outcome.opensOutageSilently = true) :
    outcome.opens = true := by
  cases outcome with
  | Quiet => cases h
  | Ended id cls duration peakLossPct => cases h
  | Dump submit kind event =>
    cases submit with
    | true => cases h
    | false =>
      cases kind with
      | Opened => rfl
      | Escalated => cases h
      | Ongoing => cases h

/-- An event that opens: its ticket, and when the half hour starts. -/
theorem observeClosed_some (cls : Class) (pct : F) :
    (st.observeClosed cfg now id others (some cls) pct).2.1.submits =
        st.submit cfg now others cls ∧
      (st.observeClosed cfg now id others (some cls) pct).2.1.opens = true ∧
      (st.observeClosed cfg now id others (some cls) pct).2.1.opensOutageSilently =
        (!st.submit cfg now others cls && cls = .Outage) ∧
      (st.observeClosed cfg now id others (some cls) pct).1.lastSubmit =
        if st.submit cfg now others cls = true ∨ others = true then some now
        else st.lastSubmit := by
  unfold LinkTrack.observeClosed
  dsimp only
  -- Whether `submit` holds decides which fields are written, and nothing else of it matters.
  generalize st.submit cfg now others cls = submit
  refine ⟨rfl, rfl, ?_, ?_⟩
  · cases submit with
    | _ => rfl
  · cases submit with
    | false =>
      cases others with
      | _ => cases cls with
        | _ => rfl
    | true =>
      cases cls with
      | _ => rfl

/-- With no event open, the half hour starts with a ticket or with a ride. -/
theorem observeClosed_lastSubmit (active : Option Class) (pct : F) :
    (st.observeClosed cfg now id others active pct).1.lastSubmit =
      if (st.observeClosed cfg now id others active pct).2.1.submits = true ∨
          (st.observeClosed cfg now id others active pct).2.1.opens = true ∧ others = true then
        some now
      else st.lastSubmit := by
  cases active with
  | none => exact (if_neg (by rintro (h | ⟨h, -⟩) <;> cases h)).symm
  | some cls =>
    obtain ⟨hsubmits, hopens, -, hlast⟩ := observeClosed_some st cfg now id others cls pct
    rw [hlast, hsubmits, hopens]
    simp only [true_and]

/-- An outage that opens without a ticket: another link's event had just opened, or the half
hour is running. -/
theorem observeClosed_silent {st : LinkTrack F} {cfg : TrackerCfg} {now : Instant}
    {id : String} {others : Bool} {active : Option Class} {pct : F}
    (h : (st.observeClosed cfg now id others active pct).2.1.opensOutageSilently = true) :
    active = some .Outage ∧
      (others = true ∨ LinkTrack.within now st.lastSubmit RETICKET_GAP = true) := by
  cases active with
  | none => cases h
  | some cls =>
    rw [(observeClosed_some st cfg now id others cls pct).2.2.1, Bool.and_eq_true,
      decide_eq_true_iff] at h
    obtain ⟨hsilent, rfl⟩ := h
    refine ⟨rfl, ?_⟩
    rw [LinkTrack.submit] at hsilent
    cases others with
    | true => exact Or.inl rfl
    | false =>
      right
      cases hwithin : LinkTrack.within now st.lastSubmit RETICKET_GAP with
      | true => rfl
      | false =>
        rw [hwithin] at hsilent
        cases hsilent

end

section

variable {F : Type*} [Floating F]

theorem track_observe (self : EventTracker F) (i : Observation) (link : String) :
    (self.observe i).1.track link =
      if link = i.link then (self.observeLink i).1 else self.track link := by
  show (((self.links.insert i.link (self.observeLink i).1).lookup link).getD .default) = _
  by_cases hsame : link = i.link
  · rw [if_pos hsame, hsame, AList.lookup_insert]
    rfl
  · rw [if_neg hsame, AList.lookup_insert_ne hsame]
    rfl

/-- With an event open, nothing opens, and the half hour starts with a ticket. -/
theorem observeOpen_lastSubmit (st : LinkTrack F) (ev : Event F) (trig : TriggerCfg F)
    (cfg : TrackerCfg) (now : Instant) (calm : Bool) (active : Option Class) (pct : F) :
    (st.observeOpen ev trig cfg now calm active pct).2.1.opens = false ∧
      (st.observeOpen ev trig cfg now calm active pct).1.lastSubmit =
        if (st.observeOpen ev trig cfg now calm active pct).2.1.submits = true then some now
        else st.lastSubmit := by
  unfold LinkTrack.observeOpen
  dsimp only
  split
  case isTrue =>
    split
    · exact ⟨rfl, rfl⟩
    · obtain ⟨hlast, hsubmits, hopens⟩ := ongoing_lastSubmit st
        { ev with
          peakLossPct := max ev.peakLossPct pct, calmSince := some (ev.calmSince.getD now) }
        now cfg false
      exact ⟨hopens, by rw [hlast, hsubmits]; rfl⟩
  case isFalse =>
    split
    · exact ⟨rfl, rfl⟩
    · obtain ⟨hlast, hsubmits, hopens⟩ := ongoing_lastSubmit st
        { ev with peakLossPct := max ev.peakLossPct pct, calmSince := none } now cfg true
      exact ⟨hopens, by rw [hlast, hsubmits]; rfl⟩

/-- The observations that start the half hour. -/
def Marks (link : String) (e : Entry F) : Prop := Filed link e ∨ Rode link e

variable {self : EventTracker F} {i : Observation}

theorem observeLink_of_some {ev : Event F} (h : (self.heated i).event = some ev) :
    self.observeLink i = (self.heated i).observeOpen ev self.trig self.cfg i.now
      (conditions i.obs self.trig).calm (self.active i) (self.pct i) := by
  unfold EventTracker.observeLink
  dsimp only
  rw [h]

theorem observeLink_of_none (h : (self.heated i).event = none) :
    self.observeLink i = (self.heated i).observeClosed self.cfg i.now i.id
      (self.othersRecentlyOpened i.now i.link) (self.active i) (self.pct i) := by
  unfold EventTracker.observeLink
  dsimp only
  rw [h]

theorem observeLink_lastSubmit (self : EventTracker F) (i : Observation) :
    (self.observeLink i).1.lastSubmit =
      if (self.observe i).2.submits = true ∨ (self.observe i).2.opens = true ∧
          self.othersRecentlyOpened i.now i.link = true then some i.now
      else (self.track i.link).lastSubmit := by
  show _ = if (self.observeLink i).2.1.submits = true ∨ (self.observeLink i).2.1.opens = true ∧
    self.othersRecentlyOpened i.now i.link = true then some i.now else (self.heated i).lastSubmit
  cases hevent : (self.heated i).event with
  | some ev =>
    obtain ⟨hopens, hlast⟩ := observeOpen_lastSubmit (self.heated i) ev self.trig self.cfg i.now
      (conditions i.obs self.trig).calm (self.active i) (self.pct i)
    rw [observeLink_of_some hevent, hopens]
    refine hlast.trans (if_congr ?_ rfl rfl)
    exact ⟨Or.inl, fun h => h.resolve_right fun h => nomatch h.1⟩
  | none =>
    rw [observeLink_of_none hevent]
    exact observeClosed_lastSubmit ..

/-- When the half hour of a link started last, after an observation of any link. -/
theorem lastSubmit_observe (self : EventTracker F) (i : Observation) (link : String) :
    (Marks link (i, (audited self i).2) →
      ((audited self i).1.track link).lastSubmit = some i.now) ∧
    (¬Marks link (i, (audited self i).2) →
      ((audited self i).1.track link).lastSubmit = (self.track link).lastSubmit) := by
  have htrack : (audited self i).1.track link = _ := track_observe self i link
  rw [htrack]
  by_cases hsame : link = i.link
  · rw [if_pos hsame, observeLink_lastSubmit, hsame]
    constructor
    · rintro (hfiled | hrode)
      · exact if_pos (Or.inl hfiled.2)
      · exact if_pos (Or.inr hrode.2)
    · intro hnot
      exact if_neg fun h => hnot (h.imp (fun h => ⟨rfl, h⟩) fun h => ⟨rfl, h⟩)
  · rw [if_neg hsame]
    refine ⟨fun hmarks => ?_, fun _ => rfl⟩
    exact absurd (hmarks.elim And.left And.left).symm hsame

theorem outage_of_active (h : self.active i = some .Outage) :
    (conditions i.obs self.trig).outage = true := by
  unfold EventTracker.active at h
  dsimp only at h
  split at h
  case isTrue houtage => exact houtage
  case isFalse =>
    split at h
    · cases h
    · split at h
      · cases h
      · cases h

/-- Why an outage opens without a ticket. -/
theorem outage_without_ticket (h : (self.observe i).2.opensOutageSilently = true) :
    ((self.track i.link).event.isNone = true ∧ (conditions i.obs self.trig).outage = true) ∧
      (self.othersRecentlyOpened i.now i.link = true ∨
        LinkTrack.within i.now (self.track i.link).lastSubmit RETICKET_GAP = true) := by
  change (self.observeLink i).2.1.opensOutageSilently = true at h
  cases hevent : (self.heated i).event with
  | some ev =>
    have hopens := (observeOpen_lastSubmit (self.heated i) ev self.trig self.cfg i.now
      (conditions i.obs self.trig).calm (self.active i) (self.pct i)).1
    rw [observeLink_of_some hevent] at h
    rw [opens_of_silent h] at hopens
    cases hopens
  | none =>
    rw [observeLink_of_none hevent] at h
    obtain ⟨hactive, hwhy⟩ := observeClosed_silent h
    exact ⟨⟨Option.isNone_iff_eq_none.mpr hevent, outage_of_active hactive⟩, hwhy⟩

/-! ## Whole runs -/

/-- Every link's `last_submit` is the time of the last ticket or ride of the link. -/
def Inv (log : List (Entry F)) (self : EventTracker F) : Prop :=
  ∀ link t, (self.track link).lastSubmit = some t →
    Since (fun e => ¬Marks link e) (fun e => Marks link e ∧ e.1.now = t) log

theorem inv_step (log : List (Entry F)) (self : EventTracker F) (i : Observation)
    (h : Inv log self) : Inv (log ++ [(i, (audited self i).2)]) (audited self i).1 := by
  intro link t hlast
  obtain ⟨hmarked, hunmarked⟩ := lastSubmit_observe self i link
  rw [since_snoc]
  by_cases hmarks : Marks link (i, (audited self i).2)
  · rw [hmarked hmarks] at hlast
    exact Or.inl ⟨hmarks, Option.some_inj.mp hlast⟩
  · rw [hunmarked hmarks] at hlast
    exact Or.inr ⟨h link t hlast, hmarks⟩

theorem inv_run (trig : TriggerCfg F) (cfg : TrackerCfg) (observations : List Observation) :
    Inv (Mealy.log audited (.new trig cfg) observations)
      (Mealy.run audited (.new trig cfg) observations) := by
  refine Mealy.invariant_along (I := Inv) (G := fun _ _ _ => True)
    (fun log self i h _ => inv_step log self i h) (h := []) ?_ ?_
  · intro link t hlast
    cases hlast
  · exact Mealy.along_of_forall (P := fun _ => True) (fun _ _ _ h => h) fun _ _ => trivial

/-- In every run in which outages ride only on events that have a ticket, and no link goes down
again in the half hour after it rode: an outage that opens without a ticket is on one of the
last half hour for the same link, or on that of another link's event that had just opened. -/
theorem no_outage_unreported {trig : TriggerCfg F} {cfg : TrackerCfg}
    {observations : List Observation}
    (hgrounded : Mealy.Along audited Grounded [] (.new trig cfg) observations) :
    Mealy.Along audited Reported [] (.new trig cfg) observations := by
  refine Mealy.along_iff.mpr fun before i rest hsplit hsilent => ?_
  have hground := Mealy.along_iff.mp hgrounded before i rest hsplit
  rw [List.nil_append] at hground ⊢
  obtain ⟨hopens, hwhy⟩ := outage_without_ticket hsilent
  have hcovered := hground hopens
  by_cases hothers : (Mealy.run audited (.new trig cfg) before).othersRecentlyOpened
      i.now i.link = true
  · rw [if_pos hothers] at hcovered
    exact Or.inr hcovered
  · rw [if_neg hothers] at hcovered
    left
    obtain ⟨t, hlast, hgap⟩ := (Option.any_eq_true _ _).mp (hwhy.resolve_left hothers)
    -- The half hour that is running was started by a ticket, for it was not by a ride.
    obtain ⟨older, e, newer, hlog, ⟨hmarks, hnow⟩, hunmarked⟩ :=
      inv_run trig cfg before i.link t hlast
    have hrecent : i.now - e.1.now < RETICKET_GAP := by
      rw [hnow]
      exact of_decide_eq_true hgap
    rcases hmarks with hfiled | hrode
    · refine ⟨e, ?_, hfiled, hrecent⟩
      rw [hlog]
      exact List.mem_append_right _ (List.mem_cons_self ..)
    · refine absurd ⟨older, e, newer, hlog, ⟨hrode, hrecent⟩, fun y hy hfiled => ?_⟩ hcovered
      exact hunmarked y hy (Or.inl hfiled)

end

/-- The configuration of the source's own tests. -/
def testTrigger : TriggerCfg ℚ where
  minProbes := 100
  openMisses := 8
  openPct := 12
  closePct := 5
  clear := 300000000000
  outageAfter := 60000000000
  warmup := 120000000000
  flapDowns := 3

def testTracker : TrackerCfg where
  dumpCooldown := 300000000000
  join := 60000000000
  degradedTicketGap := 21600000000000

/-- At a second of the run, the link has been down for 90 seconds. -/
def downAt (link : String) (second : Nat) : Observation :=
  ⟨second * 1000000000, UInt64.ofNat (1000 + second), link, ⟨some 90000000000, 1, 0, 0, none⟩⟩

/-- At a second of the run, the link is up and loses nothing. -/
def calmAt (link : String) (second : Nat) : Observation :=
  ⟨second * 1000000000, UInt64.ofNat (1000 + second), link,
    ⟨none, 0, 300, 0, some 300000000000⟩⟩

/-- One link rides on another's ticket, and that one goes down again soon after. -/
theorem no_outage_unreported_beside :
    Mealy.Along audited Reported [] (.new testTrigger testTracker)
      [downAt "a" 0, downAt "b" 30, calmAt "a" 100, calmAt "a" 400, downAt "a" 500] :=
  no_outage_unreported (by decide +kernel)

/-- The tickets of a run, and the outages that open without one. -/
def ticketsAndSilent (observations : List Observation) :
    List (String × Nat) × List (String × Nat) :=
  let log := Mealy.log audited (EventTracker.new testTrigger testTracker) observations
  ((log.filter fun e => e.2.1.submits).map fun e => (e.1.link, e.1.now / 1000000000),
    (log.filter fun e => e.2.1.opensOutageSilently).map fun e => (e.1.link, e.1.now / 1000000000))

/-- Link `a` goes down twice, the second time without a ticket; link `b` goes down just after
it and has none.  And link `b` rides once, and has no ticket when it goes down later. -/
theorem outage_unreported :
    (ticketsAndSilent [downAt "a" 0, calmAt "a" 100, calmAt "a" 400, downAt "a" 500,
        downAt "b" 520] = ([("a", 0)], [("a", 500), ("b", 520)]) ∧
      ¬Mealy.Along audited Reported [] (.new testTrigger testTracker)
        [downAt "a" 0, calmAt "a" 100, calmAt "a" 400, downAt "a" 500, downAt "b" 520]) ∧
    ticketsAndSilent [downAt "a" 0, downAt "b" 30, calmAt "b" 100, calmAt "b" 400,
        downAt "b" 500] = ([("a", 0)], [("b", 30), ("b", 500)]) ∧
      ¬Mealy.Along audited Reported [] (.new testTrigger testTracker)
        [downAt "a" 0, downAt "b" 30, calmAt "b" 100, calmAt "b" 400, downAt "b" 500] :=
  ⟨⟨by decide +kernel, by decide +kernel⟩, by decide +kernel, by decide +kernel⟩

end Mlvpn.Ports.AutoReport
