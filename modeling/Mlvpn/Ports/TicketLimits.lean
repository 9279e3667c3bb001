import Mlvpn.Ports.EventEvidence

/-!
# The limits on tickets

Which of the events of a link file a ticket is decided by two times the tracker keeps for it,
that of its last ticket or ride and that of its last degraded one.  Over whole runs they come to
the limits below.  Degraded events that are held back are counted, and the count is told with
the next ticket of their kind; it is kept in 32 bits, so that what is told is the number modulo
`2 ^ 32`.

## Main results

* `inv_step`: the two times, the open event and the count against all tickets so far.
* `tickets_limited`: the limits, and what the count says.
* `suppressed_count_wraps`: after `2 ^ 32` events held back the count says none.
-/

namespace Mlvpn.Ports.TicketLimits

open Verified PastTime
open AutoReport hiding Class Inv inv_step
open EventEvidence hiding Inv inv_step
open FecRecovery (Instant)

/-! ## Tickets in the log -/

section

variable {F : Type*}

/-- The class of the event on the ticket that is submitted. -/
def ticket : Outcome F → Option AutoReport.Class
  | .Dump true _ event => some event.cls
  | _ => none

theorem ticket_dump {submit : Bool} {kind : DumpKind} {info : EventInfo F}
    {cls : AutoReport.Class} :
    ticket (.Dump submit kind info) = some cls ↔ submit = true ∧ info.cls = cls := by
  cases submit with
  | true => exact ⟨fun h => ⟨rfl, Option.some_inj.mp h⟩, fun h => congrArg some h.2⟩
  | false => exact ⟨nofun, nofun⟩

theorem isSome_ticket_dump {submit : Bool} {kind : DumpKind} {info : EventInfo F} :
    (ticket (.Dump submit kind info)).isSome = submit := by
  cases submit with
  | _ => rfl

/-- The class of the event that opens. -/
def openedClass : Outcome F → Option AutoReport.Class
  | .Dump _ .Opened event => some event.cls
  | _ => none

/-- A ticket of the link for an event of this class. -/
def Ticket (link : String) (cls : AutoReport.Class) (e : Entry F) : Prop :=
  e.1.link = link ∧ ticket e.2.1 = some cls

/-- A ticket of the link with which an event opens. -/
def OpeningTicket (link : String) (e : Entry F) : Prop :=
  e.1.link = link ∧ (ticket e.2.1).isSome = true ∧ e.2.1.opens = true

/-- A degraded event of the link opens. -/
def degrades (link : String) (e : Entry F) : Bool :=
  e.1.link = link && openedClass e.2.1 = some .Degraded

/-- A degraded event of the link opens on a ticket, its own or another link's. -/
def covers (link : String) (e : Entry F) : Bool := degrades link e && (e.2.1.submits || e.2.2)

/-- A degraded event of the link opens without a ticket and without joining another's. -/
def holdsBack (link : String) (e : Entry F) : Bool :=
  degrades link e && !(e.2.1.submits || e.2.2)

/-- The degraded events of the link held back since the last one that was not. -/
def heldBack (link : String) (log : List (Entry F)) : Nat :=
  countSince (covers link) (holdsBack link) log

/-- The count told with a degraded event that opens with a ticket. -/
def told : Outcome F → Option UInt32
  | .Dump true .Opened event =>
      if event.cls = .Degraded then some event.suppressedDegraded else none
  | _ => none

end

section

variable {F : Type*} [Floating F]

/-- The limits that one observation keeps. -/
structure Limited (log : List (Entry F)) (self : EventTracker F) (i : Observation) : Prop where
  /-- Tickets with which events open are the gap apart. -/
  opening : OpeningTicket i.link (i, (audited self i).2) →
    ∀ e ∈ log, OpeningTicket i.link e → e.1.now + RETICKET_GAP ≤ i.now
  /-- So are those for degraded events, by their own gap. -/
  degraded : Ticket i.link .Degraded (i, (audited self i).2) →
    ∀ e ∈ log, Ticket i.link .Degraded e → e.1.now + self.cfg.degradedTicketGap ≤ i.now
  /-- Each ticket of an event is for a higher class than the one before. -/
  higher : ∀ cls, Ticket i.link cls (i, (audited self i).2) →
    ∀ before e after, log = before ++ e :: after → (∀ x ∈ after, ¬Calmed i.link x) →
      ∀ cls', Ticket i.link cls' e → cls'.severity < cls.severity
  /-- The count is the number of events held back, in 32 bits. -/
  counted : ∀ n, told (self.observe i).2 = some n → n.toNat = heldBack i.link log % 2 ^ 32

end

/-! ## What the state of a link says -/

section

variable {F : Type*} {link : String} {log : List (Entry F)} {e : Entry F} {P : Entry F → Prop}

/-- Whatever was `P` so far was so no later than the time kept. -/
def Dated (P : Entry F → Prop) (kept : Option Instant) (log : List (Entry F)) : Prop :=
  ∀ x ∈ log, P x → ∃ t, kept = some t ∧ x.1.now ≤ t

theorem Dated.keep {kept : Option Instant} (h : Dated P kept log) (he : ¬P e) :
    Dated P kept (log ++ [e]) := by
  intro x hx hP
  rcases List.mem_append.mp hx with hx | hx
  · exact h x hx hP
  · rw [List.mem_singleton.mp hx] at hP
    exact absurd hP he

theorem dated_now (hordered : ∀ x ∈ log, x.1.now ≤ e.1.now) :
    Dated P (some e.1.now) (log ++ [e]) := by
  intro x hx _
  refine ⟨e.1.now, rfl, ?_⟩
  rcases List.mem_append.mp hx with hx | hx
  · exact hordered x hx
  · rw [List.mem_singleton.mp hx]

/-- A ticket of the event that is open on the link. -/
def Standing (link : String) (cls : AutoReport.Class) (log : List (Entry F)) : Prop :=
  Since (fun e => ¬Calmed link e) (Ticket link cls) log

/-- Any ticket of the link. -/
def AnyTicket (link : String) (e : Entry F) : Prop :=
  e.1.link = link ∧ (ticket e.2.1).isSome = true

theorem heldBack_snoc (link : String) (log : List (Entry F)) (e : Entry F) :
    heldBack link (log ++ [e]) =
      if covers link e = true then 0
      else heldBack link log + if holdsBack link e = true then 1 else 0 :=
  countSince_snoc

theorem heldBack_keep (h : degrades link e = false) :
    heldBack link (log ++ [e]) = heldBack link log := by
  have hcovers : covers link e = false := by rw [covers, h, Bool.false_and]
  have hholds : holdsBack link e = false := by rw [holdsBack, h, Bool.false_and]
  rw [heldBack_snoc, hcovers, hholds]
  rfl

theorem degrades_other (h : e.1.link ≠ link) : degrades link e = false := by
  rw [degrades, decide_eq_false h, Bool.false_and]

theorem degrades_none (h : openedClass e.2.1 = none) : degrades link e = false := by
  rw [degrades, h, Bool.and_eq_false_iff]
  exact Or.inr rfl

/-- What the state of a link says about the tickets so far. -/
structure LinkInv (link : String) (log : List (Entry F)) (st : LinkTrack F) : Prop where
  submitted : Dated (AnyTicket link) st.lastSubmit log
  degraded : Dated (Ticket link .Degraded) st.lastDegradedSubmit log
  standing : ∀ ev, st.event = some ev → ∀ cls, Standing link cls log →
    cls.severity ≤ ev.cls.severity
  settled : st.event = none → ∀ cls, ¬Standing link cls log
  held : st.suppressedDegraded = UInt32.ofNat (heldBack link log)

theorem linkInv_default (link : String) : LinkInv link ([] : List (Entry F)) .default where
  submitted := nofun
  degraded := nofun
  standing := nofun
  settled := fun _ _ => not_since_nil
  held := rfl

theorem LinkInv.other {st : LinkTrack F} (h : LinkInv link log st) (hother : e.1.link ≠ link) :
    LinkInv link (log ++ [e]) st where
  submitted := h.submitted.keep fun hticket => hother hticket.1
  degraded := h.degraded.keep fun hticket => hother hticket.1
  standing := fun ev hev cls hstanding => by
    rcases since_snoc.mp hstanding with hticket | ⟨hstanding, -⟩
    · exact absurd hticket.1 hother
    · exact h.standing ev hev cls hstanding
  settled := fun hnone cls hstanding => by
    rcases since_snoc.mp hstanding with hticket | ⟨hstanding, -⟩
    · exact hother hticket.1
    · exact h.settled hnone cls hstanding
  held := by
    rw [heldBack_keep (degrades_other hother)]
    exact h.held

/-- An entry of the link that files no ticket and opens no event. -/
theorem standing_keep {cls : AutoReport.Class} (hnone : ticket e.2.1 = none)
    (h : Standing link cls (log ++ [e])) : Standing link cls log := by
  rcases since_snoc.mp h with hticket | ⟨hstanding, -⟩
  · exact absurd (hnone.symm.trans hticket.2) (by simp)
  · exact hstanding

end

section

variable {F : Type*} [Floating F] {log : List (Entry F)} {self : EventTracker F}
  {i : Observation} {st : LinkTrack F} {outcome : Outcome F}

/-- An observation after which nothing is filed, opens or ends. -/
theorem LinkInv.quiet {others : Bool} {ev ev' : Event F}
    (h : LinkInv i.link log (self.track i.link))
    (hev : (self.track i.link).event = some ev) (hcls : ev'.cls = ev.cls)
    (hticket : ticket outcome = none) (hopened : openedClass outcome = none) :
    LinkInv i.link (log ++ [(i, outcome, others)])
      { self.heated i with event := some ev' } where
  submitted := h.submitted.keep fun hany => by
    have hsome := hany.2
    rw [hticket] at hsome
    cases hsome
  degraded := h.degraded.keep fun hany => absurd (hticket.symm.trans hany.2) (by simp)
  standing := fun ev'' hev'' cls hstanding => by
    cases hev''
    rw [hcls]
    exact h.standing ev hev cls (standing_keep hticket hstanding)
  settled := nofun
  held := by
    rw [heldBack_keep (degrades_none hopened)]
    exact h.held

/-- The entry of an observation. -/
def entry (self : EventTracker F) (i : Observation) (outcome : Outcome F) : Entry F :=
  (i, outcome, self.othersRecentlyOpened i.now i.link)

variable {info : EventInfo F}

omit [Floating F] in
theorem degrades_opened {submit : Bool} :
    degrades i.link (entry self i (.Dump submit .Opened info)) = (info.cls = .Degraded : Bool) := by
  show (decide (i.link = i.link) && decide (some info.cls = some AutoReport.Class.Degraded)) = _
  rw [decide_eq_true rfl, Bool.true_and]
  exact decide_eq_decide.mpr Option.some_inj

variable {cls : AutoReport.Class}

/-- The count with one more event that opens. -/
theorem held_opened (h : LinkInv i.link log (self.track i.link)) (hcls : info.cls = cls) :
    (openedTrack self i cls).suppressedDegraded = UInt32.ofNat (heldBack i.link
      (log ++ [entry self i (.Dump (submits self i cls) .Opened info)])) := by
  have hheld : (self.heated i).suppressedDegraded = UInt32.ofNat (heldBack i.link log) := h.held
  rw [heldBack_snoc, covers, holdsBack, degrades_opened, hcls]
  show (if cls = .Degraded then if covered self i cls = true then 0
      else (self.heated i).suppressedDegraded + 1 else (self.heated i).suppressedDegraded) =
    UInt32.ofNat (if (decide (cls = .Degraded) && covered self i cls) = true then 0
      else heldBack i.link log +
        if (decide (cls = .Degraded) && !covered self i cls) = true then 1 else 0)
  rw [hheld]
  by_cases hdegraded : cls = .Degraded
  · rw [if_pos hdegraded, decide_eq_true hdegraded]
    cases covered self i cls with
    | true => rfl
    | false => exact (UInt32.ofNat_add _ _).symm
  · rw [if_neg hdegraded, decide_eq_false hdegraded]
    rfl

/-- An event that opens. -/
theorem LinkInv.opened
    (h : LinkInv i.link log (self.track i.link)) (hordered : ∀ x ∈ log, x.1.now ≤ i.now)
    (hnone : (self.track i.link).event = none) (hcls : info.cls = cls) :
    LinkInv i.link (log ++ [entry self i (.Dump (submits self i cls) .Opened info)])
      (openedTrack self i cls) where
  submitted := by
    show Dated _ (if covered self i cls = true then some i.now else _) _
    by_cases hcovered : covered self i cls = true
    · rw [if_pos hcovered]
      exact dated_now (e := entry self i _) hordered
    · rw [if_neg hcovered]
      refine h.submitted.keep fun hany => hcovered ?_
      rw [covered, isSome_ticket_dump.symm.trans hany.2, Bool.true_or]
  degraded := by
    show Dated _ (if covered self i cls = true ∧ cls = .Degraded then some i.now else _) _
    by_cases hcovered : covered self i cls = true ∧ cls = .Degraded
    · rw [if_pos hcovered]
      exact dated_now (e := entry self i _) hordered
    · rw [if_neg hcovered]
      refine h.degraded.keep fun hticket => hcovered ?_
      obtain ⟨hsubmit, hdegraded⟩ := ticket_dump.mp hticket.2
      exact ⟨by rw [covered, hsubmit, Bool.true_or], hcls.symm.trans hdegraded⟩
  standing := fun ev hev cls' hstanding => by
    cases hev
    rcases since_snoc.mp hstanding with hticket | ⟨hstanding, -⟩
    · rw [← (ticket_dump.mp hticket.2).2, hcls]
      exact le_refl _
    · exact absurd hstanding (h.settled hnone cls')
  settled := nofun
  held := held_opened h hcls

/-- One observation of the link, case by case. -/
theorem LinkInv.own (h : LinkInv i.link log (self.track i.link))
    (hordered : ∀ x ∈ log, x.1.now ≤ i.now) (hobserved : Observed self i st outcome) :
    LinkInv i.link (log ++ [entry self i outcome]) st := by
  cases hobserved with
  | idle hnone hactive =>
    refine ⟨h.submitted.keep nofun, h.degraded.keep nofun, fun ev hev => ?_, fun _ cls => ?_, ?_⟩
    · exact absurd (hnone.symm.trans hev) (by simp)
    · exact fun hstanding => h.settled hnone cls (standing_keep rfl hstanding)
    · rw [heldBack_keep (degrades_none rfl)]
      exact h.held
  | opened hnone hactive hcls hreported => exact h.opened hordered hnone hcls
  | ended hev hcalm hclear =>
    refine ⟨h.submitted.keep nofun, h.degraded.keep nofun, nofun, fun _ cls hstanding => ?_, ?_⟩
    · rcases since_snoc.mp hstanding with hticket | ⟨-, hopen⟩
      · cases hticket.2
      · exact hopen ⟨rfl, rfl⟩
    · rw [heldBack_keep (degrades_none rfl)]
      exact h.held
  | calming hev hcalm => exact h.quiet hev rfl rfl rfl
  | escalated hev htrouble hworse hcls =>
    refine ⟨dated_now (e := entry self i _) hordered, h.degraded.keep fun hticket => ?_,
      fun ev' hev' cls' hstanding => ?_, nofun, ?_⟩
    · -- What an event escalates to is above some class, so it is not the lowest.
      rw [← hcls, (ticket_dump.mp hticket.2).2] at hworse
      exact absurd hworse (Nat.not_lt_zero _)
    · cases hev'
      rcases since_snoc.mp hstanding with hticket | ⟨hstanding, -⟩
      · rw [← (ticket_dump.mp hticket.2).2, hcls]
      · exact le_of_lt (lt_of_le_of_lt (h.standing _ hev cls' hstanding) hworse)
    · rw [heldBack_keep (degrades_none rfl)]
      exact h.held
  | reminded hev htrouble hcooldown => exact h.quiet hev rfl rfl rfl
  | troubled hev htrouble => exact h.quiet hev rfl rfl rfl

/-! ## One step of a run -/

def Inv (log : List (Entry F)) (self : EventTracker F) : Prop :=
  ∀ link, LinkInv link log (self.track link)

theorem inv_step (log : List (Entry F)) (self : EventTracker F) (i : Observation)
    (h : Inv log self) (hordered : ∀ e ∈ log, e.1.now ≤ i.now) :
    Inv (log ++ [(i, (audited self i).2)]) (audited self i).1 := by
  intro link
  have htrack : (audited self i).1.track link = _ := track_observe self i link
  rw [htrack]
  by_cases hsame : link = i.link
  · rw [if_pos hsame, hsame]
    exact (h i.link).own hordered (observed self i)
  · rw [if_neg hsame]
    exact (h link).other (Ne.symm hsame)

/-! ## The limits -/

/-- A time kept that is not less than the gap ago, against something no later than it. -/
theorem add_le_of_not_within {kept : Option Instant} {x now t : Instant} {gap : Nat}
    (hwithin : LinkTrack.within now kept gap = false) (hkept : kept = some t) (hx : x ≤ t)
    (hnow : x ≤ now) : x + gap ≤ now := by
  rw [hkept] at hwithin
  have hgap : gap ≤ now - t := Nat.le_of_not_lt (of_decide_eq_false hwithin)
  exact add_le_of_last hx hnow hgap

/-- The class of a ticket: the one that opens, where nothing stands against it and nothing is
open, or one above that of the event that is open. -/
theorem ticket_cases (hobserved : Observed self i st outcome) (h : ticket outcome = some cls) :
    ((self.track i.link).event = none ∧ outcome.opens = true ∧ submits self i cls = true) ∨
      outcome.opens = false ∧ ∃ ev, (self.track i.link).event = some ev ∧
        ev.cls.severity < cls.severity := by
  cases hobserved with
  | opened hnone hactive hcls hreported =>
    obtain ⟨hsubmit, hinfo⟩ := ticket_dump.mp h
    rw [hcls] at hinfo
    rw [hinfo] at hsubmit
    exact Or.inl ⟨hnone, rfl, hsubmit⟩
  | escalated hev htrouble hworse hcls =>
    obtain ⟨-, hinfo⟩ := ticket_dump.mp h
    rw [hcls] at hinfo
    rw [hinfo] at hworse
    exact Or.inr ⟨rfl, _, hev, hworse⟩
  | _ => cases h

/-- The count told is the one kept. -/
theorem told_eq {n : UInt32} (hobserved : Observed self i st outcome)
    (h : told outcome = some n) : n = (self.track i.link).suppressedDegraded := by
  cases hobserved with
  | @opened cls info hnone hactive hcls hreported =>
    cases hsubmit : submits self i cls with
    | false =>
      rw [hsubmit] at h
      cases h
    | true =>
      rw [hsubmit] at h
      have hcovered : covered self i cls = true := by rw [covered, hsubmit, Bool.true_or]
      change (if info.cls = .Degraded then some info.suppressedDegraded else none) = some n at h
      by_cases hdegraded : info.cls = .Degraded
      · rw [if_pos hdegraded, Option.some_inj, hreported] at h
        rw [← h]
        exact if_neg fun hheld => absurd (hheld.2.symm.trans hcovered) Bool.false_ne_true
      · rw [if_neg hdegraded] at h
        cases h
  | _ => cases h

theorem limited_of_inv (h : Inv log self) (hordered : ∀ e ∈ log, e.1.now ≤ i.now) :
    Limited log self i where
  opening hopening e he hticket := by
    obtain ⟨cls, hcls⟩ := Option.isSome_iff_exists.mp hopening.2.1
    obtain ⟨t, hkept, hbefore⟩ := (h i.link).submitted e he ⟨hticket.1, hticket.2.1⟩
    rcases ticket_cases (observed self i) hcls with ⟨-, -, hsubmits⟩ | ⟨hopens, -⟩
    · exact add_le_of_not_within (free_of_submits hsubmits).1 hkept hbefore (hordered e he)
    · exact absurd (hopens.symm.trans hopening.2.2) (by simp)
  degraded hdegraded e he hticket := by
    obtain ⟨t, hkept, hbefore⟩ := (h i.link).degraded e he hticket
    rcases ticket_cases (observed self i) hdegraded.2 with ⟨-, -, hsubmits⟩ | ⟨-, ev, -, hworse⟩
    · exact add_le_of_not_within ((free_of_submits hsubmits).2 rfl) hkept hbefore (hordered e he)
    · exact absurd hworse (Nat.not_lt_zero _)
  higher cls hcls before e after hlog hopen cls' hticket := by
    have hstanding : Standing i.link cls' log := ⟨before, e, after, hlog, hticket, hopen⟩
    rcases ticket_cases (observed self i) hcls.2 with ⟨hnone, -⟩ | ⟨-, ev, hev, hworse⟩
    · exact absurd hstanding ((h i.link).settled hnone cls')
    · exact lt_of_le_of_lt ((h i.link).standing ev hev cls' hstanding) hworse
  counted n hn := by
    rw [told_eq (observed self i) hn, (h i.link).held]
    exact UInt32.toNat_ofNat'

/-- In every run of observations whose times do not go back: the tickets with which events of a
link open are half an hour apart; those for its degraded events are their own gap apart; each
ticket of an event is for a higher class than the one before; and the count told with a degraded
event's ticket is the number of those held back since the last one that was not, modulo
`2 ^ 32`. -/
theorem tickets_limited {trig : TriggerCfg F} {cfg : TrackerCfg}
    {observations : List Observation}
    (hordered : observations.Pairwise fun i j => i.now ≤ j.now) :
    Mealy.Along audited Limited [] (.new trig cfg) observations := by
  refine Mealy.along_of_invariant (I := Inv) inv_step ?_ ?_ (Mealy.along_of_pairwise _ hordered)
  · exact fun log self i h hinOrder => limited_of_inv h hinOrder
  · exact fun link => linkInv_default link

end

/-- A link that loses a fifth files a ticket, is calm, and loses a fifth again within the gap:
the second event is held back, and told with the ticket six hours later. -/
theorem tickets_limited_held_back :
    ((Mealy.log audited (.new testTrigger testTracker)
        [lossyAt "a" 0, lossyAt "a" 30, calmAt "a" 40, calmAt "a" 340, lossyAt "a" 350,
          lossyAt "a" 380, calmAt "a" 390, calmAt "a" 690, lossyAt "a" 30000,
          lossyAt "a" 30030]).map fun e => told e.2.1) =
      [none, some 0, none, none, none, none, none, none, none, some 1] ∧
    Mealy.Along audited Limited [] (.new testTrigger testTracker)
      [lossyAt "a" 0, lossyAt "a" 30, calmAt "a" 40, calmAt "a" 340, lossyAt "a" 350,
        lossyAt "a" 380, calmAt "a" 390, calmAt "a" 690, lossyAt "a" 30000, lossyAt "a" 30030] :=
  ⟨by decide +kernel, tickets_limited (by decide)⟩

/-! ## The count in 32 bits -/

/-- Under this configuration a link that loses a fifth is both hot and calm, and an event ends
at once. -/
def eagerTrigger : TriggerCfg ℚ := { testTrigger with closePct := 50, clear := 0 }

theorem conditions_ext {c : Conditions} (houtage : c.outage = false) (hflap : c.flap = false)
    (hhot : c.hot = true) (hcalm : c.calm = true) : c = ⟨false, false, true, true⟩ := by
  obtain ⟨outage, flap, hot, calm⟩ := c
  cases houtage
  cases hflap
  cases hhot
  cases hcalm
  rfl

theorem lossy_conditions (link : String) (second : Nat) :
    conditions (lossyAt link second).obs eagerTrigger = ⟨false, false, true, true⟩ := by
  show conditions (lossyAt "a" 0).obs eagerTrigger = _
  have hfields : (conditions (lossyAt "a" 0).obs eagerTrigger).outage = false ∧
      (conditions (lossyAt "a" 0).obs eagerTrigger).flap = false ∧
      (conditions (lossyAt "a" 0).obs eagerTrigger).hot = true ∧
      (conditions (lossyAt "a" 0).obs eagerTrigger).calm = true := by
    decide +kernel
  exact conditions_ext hfields.1 hfields.2.1 hfields.2.2.1 hfields.2.2.2

/-- Half a minute after the start, with `held` events held back and none open. -/
def between (held : UInt32) (prev : Option (Prev ℚ)) : EventTracker ℚ :=
  ⟨eagerTrigger, testTracker,
    ⟨[⟨"a", none, some 0, some 30000000000, some 30000000000, held, prev⟩], by simp⟩, true⟩

/-- The same with an event open. -/
def during (held : UInt32) (prev : Option (Prev ℚ)) (peak : ℚ) : EventTracker ℚ :=
  ⟨eagerTrigger, testTracker,
    ⟨[⟨"a", some ⟨(lossyAt "a" 30).id, .Degraded, 30000000000, peak, none, 30000000000⟩, some 0,
      some 30000000000, some 30000000000, held, prev⟩], by simp⟩, true⟩

theorem during_start : ∃ peak,
    Mealy.run audited (.new eagerTrigger testTracker) [lossyAt "a" 0, lossyAt "a" 30] =
      during 0 none peak := by
  have hfirst : (EventTracker.observe (.new eagerTrigger testTracker) (lossyAt "a" 0)).1 =
      ⟨eagerTrigger, testTracker, ⟨[⟨"a", none, some 0, none, none, 0, none⟩], by simp⟩,
        false⟩ := by
    simp only [EventTracker.observe, EventTracker.observeLink, EventTracker.heated,
      EventTracker.active, EventTracker.new, lossy_conditions]
    rfl
  show ∃ peak, (EventTracker.observe (EventTracker.observe (.new eagerTrigger testTracker)
    (lossyAt "a" 0)).1 (lossyAt "a" 30)).1 = during 0 none peak
  rw [hfirst]
  refine ⟨EventTracker.pct ⟨eagerTrigger, testTracker,
    ⟨[⟨"a", none, some 0, none, none, 0, none⟩], by simp⟩, false⟩ (lossyAt "a" 30), ?_⟩
  simp only [EventTracker.observe, EventTracker.observeLink, EventTracker.heated,
    EventTracker.active, lossy_conditions]
  rfl

/-- The event that is open ends. -/
theorem between_of_during (held : UInt32) (prev : Option (Prev ℚ)) (peak : ℚ) :
    openedClass ((during held prev peak).observe (lossyAt "a" 30)).2 = none ∧
      ∃ prev', ((during held prev peak).observe (lossyAt "a" 30)).1 = between held prev' := by
  simp only [EventTracker.observe, EventTracker.observeLink, EventTracker.heated,
    EventTracker.active, during, lossy_conditions]
  refine ⟨rfl, some ⟨(lossyAt "a" 30).now, (lossyAt "a" 30).now - 30000000000,
    max peak ((during held prev peak).pct (lossyAt "a" 30)), .Degraded⟩, rfl⟩

/-- The next event is held back. -/
theorem during_of_between (held : UInt32) (prev : Option (Prev ℚ)) :
    openedClass ((between held prev).observe (lossyAt "a" 30)).2 = some .Degraded ∧
      ((between held prev).observe (lossyAt "a" 30)).2.submits = false ∧
      ∃ peak, ((between held prev).observe (lossyAt "a" 30)).1 = during (held + 1) prev peak := by
  simp only [EventTracker.observe, EventTracker.observeLink, EventTracker.heated,
    EventTracker.active, between, lossy_conditions]
  exact ⟨rfl, rfl, (between held prev).pct (lossyAt "a" 30), rfl⟩

theorem told_between (held : UInt32) (prev : Option (Prev ℚ)) :
    told ((between held prev).observe (lossyAt "a" 30000)).2 = some held := by
  simp only [EventTracker.observe, EventTracker.observeLink, EventTracker.heated,
    EventTracker.active, between, lossy_conditions]
  rfl

/-- A ticket, and then `n` events held back. -/
def eagerRun : Nat → List Observation
  | 0 => [lossyAt "a" 0, lossyAt "a" 30]
  | n + 1 => eagerRun n ++ [lossyAt "a" 30, lossyAt "a" 30]

/-- After `n` events held back, `n` are counted in 32 bits. -/
theorem eagerRun_state (n : Nat) :
    (∃ prev peak, Mealy.run audited (.new eagerTrigger testTracker) (eagerRun n) =
      during (UInt32.ofNat n) prev peak) ∧
    heldBack "a" (Mealy.log audited (.new eagerTrigger testTracker) (eagerRun n)) = n := by
  induction n with
  | zero =>
    obtain ⟨peak, hstart⟩ := during_start
    exact ⟨⟨none, peak, hstart⟩, by decide +kernel⟩
  | succ n ih =>
    obtain ⟨⟨prev, peak, hduring⟩, hheld⟩ := ih
    obtain ⟨hended, prev', hbetween⟩ := between_of_during (UInt32.ofNat n) prev peak
    obtain ⟨hopened, hsubmits, peak', hduring'⟩ := during_of_between (UInt32.ofNat n) prev'
    rw [eagerRun, Mealy.run_append, Mealy.log_append, hduring]
    have hlog : Mealy.log audited (during (UInt32.ofNat n) prev peak)
        [lossyAt "a" 30, lossyAt "a" 30] =
        [(lossyAt "a" 30, (audited (during (UInt32.ofNat n) prev peak) (lossyAt "a" 30)).2)] ++
        [(lossyAt "a" 30, (audited (between (UInt32.ofNat n) prev') (lossyAt "a" 30)).2)] := by
      rw [← hbetween]
      rfl
    have hdegrades : degrades "a" (lossyAt "a" 30,
        (audited (between (UInt32.ofNat n) prev') (lossyAt "a" 30)).2) = true := by
      rw [degrades, Bool.and_eq_true]
      exact ⟨decide_eq_true rfl, decide_eq_true hopened⟩
    have hcovered : ((audited (between (UInt32.ofNat n) prev') (lossyAt "a" 30)).2.1.submits ||
        (audited (between (UInt32.ofNat n) prev') (lossyAt "a" 30)).2.2) = false := by
      rw [Bool.or_eq_false_iff]
      exact ⟨hsubmits, rfl⟩
    constructor
    · refine ⟨prev', peak', ?_⟩
      rw [UInt32.ofNat_add]
      show ((EventTracker.observe _ _).1.observe _).1 = _
      rw [hbetween, hduring']
      rfl
    · rw [hlog, ← List.append_assoc, heldBack_snoc, covers, holdsBack, hdegrades, hcovered,
        heldBack_keep (degrades_none hended), hheld]
      rfl

theorem eagerRun_now (n : Nat) : ∀ i ∈ eagerRun n, i.now ≤ 30000000000 := by
  induction n with
  | zero => decide
  | succ n ih =>
    intro i hi
    rcases List.mem_append.mp hi with hi | hi
    · exact ih i hi
    · fin_cases hi
      · exact le_refl _
      · exact le_refl _

theorem eagerRun_ordered (n : Nat) : (eagerRun n).Pairwise fun i j => i.now ≤ j.now := by
  induction n with
  | zero => decide
  | succ n ih =>
    refine List.pairwise_append.mpr ⟨ih, by decide, fun i hi j hj => ?_⟩
    fin_cases hj
    · exact eagerRun_now n i hi
    · exact eagerRun_now n i hi

/-- The count told with a degraded event's ticket is the number of those held back. -/
def CountsExactly (log : List (Entry ℚ)) (self : EventTracker ℚ) (i : Observation) : Prop :=
  ∀ n, told (self.observe i).2 = some n → n.toNat = heldBack i.link log

/-- Where 32 bits do not hold the number of events held back, the count is another. -/
theorem eagerRun_miscounts {n : Nat} (hn : (UInt32.ofNat n).toNat ≠ n) :
    (eagerRun n ++ [lossyAt "a" 30, lossyAt "a" 30000]).Pairwise (fun i j => i.now ≤ j.now) ∧
      ¬Mealy.Along audited CountsExactly [] (.new eagerTrigger testTracker)
        (eagerRun n ++ [lossyAt "a" 30, lossyAt "a" 30000]) := by
  constructor
  · refine List.pairwise_append.mpr ⟨eagerRun_ordered n, by decide, fun i hi j hj => ?_⟩
    fin_cases hj
    · exact eagerRun_now n i hi
    · exact le_trans (eagerRun_now n i hi) (by decide)
  · intro hexact
    obtain ⟨⟨prev, peak, hduring⟩, hheld⟩ := eagerRun_state n
    obtain ⟨hended, prev', hbetween⟩ := between_of_during (UInt32.ofNat n) prev peak
    have hlast := (Mealy.along_append.mp hexact).2.2.1
    rw [hduring] at hlast
    have hcount := hlast (UInt32.ofNat n) (by
      show told ((EventTracker.observe _ _).1.observe _).2 = _
      rw [hbetween]
      exact told_between _ _)
    rw [List.nil_append, heldBack_keep (degrades_none hended)] at hcount
    exact hn (hcount.trans hheld)

/-- After `2 ^ 32` events held back, the ticket says that there were none. -/
theorem suppressed_count_wraps :
    (eagerRun (2 ^ 32) ++ [lossyAt "a" 30, lossyAt "a" 30000]).Pairwise
        (fun i j => i.now ≤ j.now) ∧
      ¬Mealy.Along audited CountsExactly [] (.new eagerTrigger testTracker)
        (eagerRun (2 ^ 32) ++ [lossyAt "a" 30, lossyAt "a" 30000]) :=
  eagerRun_miscounts (by decide)

end Mlvpn.Ports.TicketLimits
