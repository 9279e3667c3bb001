import Mlvpn.Ports.EventEvidence
import Mlvpn.Verified.AssocMap

/-!
# Reports across restarts

Port of `EventTracker::take_dirty_state` and `EventTracker::restore`, with the daemon around
them: after every change the tracker's ticket times and previous events are saved, in seconds of
the wall clock, and a restart reads them back into a tracker that has no event open.  An outage
that spans a restart opens an event again, and only the ticket time read back keeps it from
filing a second ticket.  `restore` takes a time back only if it is younger than the gap between
tickets, so that a restart half an hour into an outage files one.

A saved time is in whole seconds.  `seconds_le_toUnix` and `seconds_le_ago` say that on the way
out and back it does not become an earlier second, however often it is saved and restored.

## Main results

* `fresh_observe`, `fresh_restart`: what a call leaves of a ticket time that is young enough.
* `one_ticket_across_restarts`: one ticket, if the restarts come early in the outage.
* `restart_files_again`: an outage with two tickets.
-/

namespace Mlvpn.Ports.TrackerRestart

open Verified PastTime AssocMap
open AutoReport hiding Class Inv inv_step
open EventEvidence hiding Inv inv_step
open FecRecovery (Instant)

def PREVIOUS_EVENT_MEMORY : Nat := 604800000000000

/-! ## What is saved -/

def label : AutoReport.Class → String
  | .Degraded => "DEGRADED"
  | .Flap => "FLAP"
  | .Outage => "OUTAGE"

def classFromLabel (s : String) : Option AutoReport.Class :=
  [.Degraded, .Flap, .Outage].find? fun c => label c = s

structure PersistedPrev (F : Type*) where
  endedUnix : UInt64
  durationSecs : UInt64
  peakLossPct : F
  cls : String

structure PersistedEvents (F : Type*) where
  lastSubmitUnix : AList fun _ : String => UInt64
  lastDegradedUnix : AList fun _ : String => UInt64
  previous : AList fun _ : String => PersistedPrev F

section

variable {F : Type*} [Floating F]

/-- `to_unix`: a reading of the monotonic clock in seconds of the wall clock. -/
def toUnix (now : Instant) (nowUnix : UInt64) (at' : Instant) : UInt64 :=
  UInt64.ofNat (nowUnix.toNat - (now - at') / 1000000000)

def takeDirtyState (self : EventTracker F) (now : Instant) (nowUnix : UInt64) :
    EventTracker F × Option (PersistedEvents F) :=
  if self.dirty then
    ({ self with dirty := false }, some
      { lastSubmitUnix := choose self.links fun st => st.lastSubmit.map (toUnix now nowUnix)
        lastDegradedUnix :=
          choose self.links fun st => st.lastDegradedSubmit.map (toUnix now nowUnix)
        previous := choose self.links fun st => st.prev.map fun p =>
          ⟨toUnix now nowUnix p.endedAt, UInt64.ofNat (p.duration / 1000000000), p.peakLossPct,
            label p.cls⟩ })
  else (self, none)

/-- `ago`: a saved second as a reading of the monotonic clock, with its age.  `checked_sub`
fails below the least `Instant`, which is zero here. -/
def ago (now : Instant) (nowUnix unix : UInt64) : Option (Instant × Nat) :=
  let age := (nowUnix.toNat - unix.toNat) * 1000000000
  if age ≤ now then some (now - age, age) else none

/-- The reading, if it is younger than `memory`. -/
def recent (now : Instant) (nowUnix unix : UInt64) (memory : Nat) : Option Instant :=
  ((ago now nowUnix unix).filter fun r => r.2 < memory).map Prod.fst

def restore (self : EventTracker F) (now : Instant) (nowUnix : UInt64)
    (persisted : PersistedEvents F) : EventTracker F :=
  let links := adopt self.links .default (fun unix =>
    (recent now nowUnix unix RETICKET_GAP).map fun at' st => { st with lastSubmit := some at' })
    persisted.lastSubmitUnix
  let links := adopt links .default (fun unix =>
    (recent now nowUnix unix self.cfg.degradedTicketGap).map fun at' st =>
      { st with lastDegradedSubmit := some at' })
    persisted.lastDegradedUnix
  let links := adopt links .default (fun p =>
    (classFromLabel p.cls).bind fun cls =>
      (recent now nowUnix p.endedUnix PREVIOUS_EVENT_MEMORY).map fun at' st =>
        { st with prev := some ⟨at', p.durationSecs.toNat * 1000000000, p.peakLossPct, cls⟩ })
    persisted.previous
  { self with links }

/-! ## The daemon -/

/-- The tracker that runs, and the file with what it saved. -/
structure Daemon (F : Type*) where
  tracker : EventTracker F
  saved : Option (PersistedEvents F)

inductive Call where
  | observe (i : Observation)
  | restart (now : Instant) (nowUnix : UInt64)

def Call.now : Call → Instant
  | .observe i => i.now
  | .restart now _ => now

def Call.nowUnix : Call → UInt64
  | .observe i => i.nowUnix
  | .restart _ nowUnix => nowUnix

/-- A tracker as the daemon starts with it. -/
def boot (trig : TriggerCfg F) (cfg : TrackerCfg) (now : Instant) (nowUnix : UInt64)
    (saved : Option (PersistedEvents F)) : EventTracker F :=
  match saved with
  | some persisted => restore (.new trig cfg) now nowUnix persisted
  | none => .new trig cfg

def step (d : Daemon F) : Call → Daemon F × Option (Outcome F)
  | .observe i =>
      let (tracker, outcome) := d.tracker.observe i
      let (tracker, state) := takeDirtyState tracker i.now i.nowUnix
      (⟨tracker, state.or d.saved⟩, some outcome)
  | .restart now nowUnix =>
      (⟨boot d.tracker.trig d.tracker.cfg now nowUnix d.saved, d.saved⟩, none)

end

/-! ## Seconds out and back -/

section

variable {offset : Int} {now at' : Instant} {nowUnix unix : UInt64}

/-- The second of the wall clock at a reading of the monotonic one. -/
def seconds (offset : Int) (t : Nat) : Int := (t + offset) / 1000000000

theorem toNat_toUnix (now : Instant) (nowUnix : UInt64) (at' : Instant) :
    (toUnix now nowUnix at').toNat = nowUnix.toNat - (now - at') / 1000000000 := by
  refine UInt64.toNat_ofNat_of_lt' (lt_of_le_of_lt (Nat.sub_le _ _) ?_)
  exact nowUnix.toNat_lt

/-- The arithmetic of saving, in plain numbers. -/
theorem le_saved_second {least : Int} {now at' unix : Nat}
    (hwall : (unix : Int) = (now + offset) / 1000000000)
    (hnow : least ≤ (now + offset) / 1000000000) (hat : least ≤ (at' + offset) / 1000000000) :
    least ≤ ((unix - (now - at') / 1000000000 : Nat) : Int) := by
  omega

/-- A time that is saved does not become an earlier second. -/
theorem seconds_le_toUnix {least : Int} (hwall : (nowUnix.toNat : Int) = seconds offset now)
    (hnow : least ≤ seconds offset now) (hat : least ≤ seconds offset at') :
    least ≤ ((toUnix now nowUnix at').toNat : Int) := by
  rw [toNat_toUnix]
  exact le_saved_second hwall hnow hat

/-- The arithmetic of reading back, in plain numbers. -/
theorem read_back_second {first now nowUnix unix : Nat}
    (hwall : (nowUnix : Int) = (now + offset) / 1000000000)
    (hsaved : (first + offset) / 1000000000 ≤ (unix : Int)) (hlate : 1000000000 ≤ first)
    (hfirst : first ≤ now) (hyoung : now ≤ first + 1799000000000) :
    (nowUnix - unix) * 1000000000 ≤ now ∧ (nowUnix - unix) * 1000000000 < 1800000000000 ∧
      (first + offset) / 1000000000 ≤
        ((now - (nowUnix - unix) * 1000000000 : Nat) + offset) / 1000000000 := by
  omega

/-- A time that is read back soon enough is taken back, and does not become an earlier
second. -/
theorem seconds_le_ago {first : Instant} (hwall : (nowUnix.toNat : Int) = seconds offset now)
    (hsaved : seconds offset first ≤ unix.toNat) (hlate : 1000000000 ≤ first)
    (hfirst : first ≤ now) (hyoung : now ≤ first + 1799000000000) :
    ∃ at', recent now nowUnix unix RETICKET_GAP = some at' ∧
      seconds offset first ≤ seconds offset at' := by
  obtain ⟨hage, hgap, hsecond⟩ := read_back_second hwall hsaved hlate hfirst hyoung
  refine ⟨now - (nowUnix.toNat - unix.toNat) * 1000000000, ?_, hsecond⟩
  unfold recent ago
  dsimp only
  rw [if_pos hage, Option.filter_some]
  exact congrArg (Option.map Prod.fst) (if_pos (decide_eq_true hgap))

end

/-! ## One call -/

section

variable {F : Type*} {link : String}

/-- A link's state in a map that was brought up to date. -/
theorem track_adopt {ω : Type*} (links : AList fun _ : String => LinkTrack F)
    (f : ω → Option (LinkTrack F → LinkTrack F)) (u : AList fun _ : String => ω) (link : String) :
    ((adopt links .default f u).lookup link).getD .default =
      match (u.lookup link).bind f with
      | some change => change ((links.lookup link).getD .default)
      | none => (links.lookup link).getD .default := by
  rw [lookup_adopt]
  cases (u.lookup link).bind f with
  | none => rfl
  | some change => rfl

/-- Changes that leave a field alone leave it alone in every link's state. -/
theorem track_adopt_field {ω α : Type*} (field : LinkTrack F → α)
    {links : AList fun _ : String => LinkTrack F} {f : ω → Option (LinkTrack F → LinkTrack F)}
    (hf : ∀ w change, f w = some change → ∀ st, field (change st) = field st)
    (u : AList fun _ : String => ω) (link : String) :
    field (((adopt links .default f u).lookup link).getD .default) =
      field ((links.lookup link).getD .default) := by
  rw [track_adopt]
  cases hchange : (u.lookup link).bind f with
  | none => rfl
  | some change =>
    obtain ⟨w, -, hw⟩ := Option.bind_eq_some_iff.mp hchange
    exact hf w change hw _

/-- The ticket time after a restart, if the one saved is young enough. -/
theorem boot_lastSubmit (trig : TriggerCfg F) (cfg : TrackerCfg) {now at' : Instant}
    {nowUnix unix : UInt64} {persisted : PersistedEvents F}
    (hsaved : persisted.lastSubmitUnix.lookup link = some unix)
    (hrecent : recent now nowUnix unix RETICKET_GAP = some at') :
    ((boot trig cfg now nowUnix (some persisted)).track link).lastSubmit = some at' := by
  refine (track_adopt_field LinkTrack.lastSubmit ?_ _ link).trans
    ((track_adopt_field LinkTrack.lastSubmit ?_ _ link).trans ?_)
  · intro p change hchange st
    obtain ⟨cls, -, hchange⟩ := Option.bind_eq_some_iff.mp hchange
    obtain ⟨at', -, rfl⟩ := Option.map_eq_some_iff.mp hchange
    rfl
  · intro unix change hchange st
    obtain ⟨at', -, rfl⟩ := Option.map_eq_some_iff.mp hchange
    rfl
  · rw [track_adopt, hsaved, Option.bind_some, hrecent]
    rfl

theorem track_takeDirtyState (self : EventTracker F) (now : Instant) (nowUnix : UInt64)
    (link : String) : (takeDirtyState self now nowUnix).1.track link = self.track link := by
  unfold takeDirtyState
  split
  · rfl
  · rfl

/-- What is saved of a link's ticket time. -/
theorem saved_lastSubmit {self : EventTracker F} (hdirty : self.dirty = true) (now : Instant)
    (nowUnix : UInt64) (link : String) :
    ∃ persisted, (takeDirtyState self now nowUnix).2 = some persisted ∧
      persisted.lastSubmitUnix.lookup link =
        (self.track link).lastSubmit.map (toUnix now nowUnix) := by
  unfold takeDirtyState
  rw [if_pos hdirty]
  refine ⟨_, rfl, ?_⟩
  show (choose self.links _).lookup link = _
  rw [lookup_choose, EventTracker.track]
  cases self.links.lookup link with
  | none => rfl
  | some st => rfl

end

section

variable {F : Type*} [Floating F] {offset : Int} {link : String} {first : Instant}
  {d : Daemon F}

/-- The daemon knows of a ticket at `first` or later, to the second, and has saved it. -/
structure Fresh (offset : Int) (link : String) (first : Instant) (d : Daemon F) : Prop where
  known : ∃ t, (d.tracker.track link).lastSubmit = some t ∧ seconds offset first ≤ seconds offset t
  saved : ∃ persisted unix, d.saved = some persisted ∧
    persisted.lastSubmitUnix.lookup link = some unix ∧ seconds offset first ≤ unix.toNat

theorem seconds_mono {t t' : Nat} (h : t ≤ t') : seconds offset t ≤ seconds offset t' :=
  Int.ediv_le_ediv (by decide) (by omega)

theorem track_step_observe (d : Daemon F) (i : Observation) (link : String) :
    (step d (.observe i)).1.tracker.track link = (d.tracker.observe i).1.track link :=
  track_takeDirtyState ..

variable {self : EventTracker F} {i : Observation} {st : LinkTrack F} {outcome : Outcome F}

theorem fresh_observe (h : Fresh offset link first d)
    (hwall : (i.nowUnix.toNat : Int) = seconds offset i.now) (hfirst : first ≤ i.now) :
    Fresh offset link first (step d (.observe i)).1 := by
  have hnow : seconds offset first ≤ seconds offset i.now := seconds_mono hfirst
  have hknown : ∃ t, ((d.tracker.observe i).1.track link).lastSubmit = some t ∧
      seconds offset first ≤ seconds offset t := by
    obtain ⟨hmarked, hunmarked⟩ := lastSubmit_observe d.tracker i link
    by_cases hmarks : Marks link (i, (audited d.tracker i).2)
    · exact ⟨i.now, hmarked hmarks, hnow⟩
    · obtain ⟨t, ht, hsecond⟩ := h.known
      exact ⟨t, (hunmarked hmarks).trans ht, hsecond⟩
  refine ⟨?_, ?_⟩
  · rw [track_step_observe]
    exact hknown
  · cases hdirty : (d.tracker.observe i).1.dirty with
    | true =>
      obtain ⟨persisted, htaken, hlookup⟩ := saved_lastSubmit hdirty i.now i.nowUnix link
      obtain ⟨t, ht, hsecond⟩ := hknown
      rw [ht] at hlookup
      refine ⟨persisted, toUnix i.now i.nowUnix t, ?_, hlookup, ?_⟩
      · show (takeDirtyState (d.tracker.observe i).1 i.now i.nowUnix).2.or d.saved = _
        rw [htaken]
        rfl
      · exact seconds_le_toUnix hwall hnow hsecond
    | false =>
      obtain ⟨persisted, unix, hsaved, hrest⟩ := h.saved
      refine ⟨persisted, unix, ?_, hrest⟩
      show (takeDirtyState (d.tracker.observe i).1 i.now i.nowUnix).2.or d.saved = _
      unfold takeDirtyState
      rw [hdirty]
      exact hsaved

theorem fresh_restart {now : Instant} {nowUnix : UInt64} (h : Fresh offset link first d)
    (hwall : (nowUnix.toNat : Int) = seconds offset now) (hlate : 1000000000 ≤ first)
    (hfirst : first ≤ now) (hyoung : now ≤ first + 1799000000000) :
    Fresh offset link first (step d (.restart now nowUnix)).1 := by
  obtain ⟨persisted, unix, hsaved, hlookup, hsecond⟩ := h.saved
  obtain ⟨t, hrecent, ht⟩ := seconds_le_ago hwall hsecond hlate hfirst hyoung
  refine ⟨⟨t, ?_, ht⟩, h.saved⟩
  show ((boot _ _ now nowUnix d.saved).track link).lastSubmit = some t
  rw [hsaved]
  exact boot_lastSubmit _ _ hlookup hrecent

/-! ## Tickets -/

/-- A ticket of the link with which an event opens. -/
def isTicket (link : String) : Call × Option (Outcome F) → Bool
  | (.observe i, some (.Dump true .Opened _)) => i.link = link
  | _ => false

theorem opening_of_observed (hobserved : Observed self i st outcome)
    (h : isTicket link (.observe i, some outcome) = true) :
    i.link = link ∧ (self.track i.link).event = none ∧
      ∃ cls, self.active i = some cls ∧ submits self i cls = true ∧
        st = openedTrack self i cls := by
  cases hobserved with
  | @opened cls info hnone hactive hcls hreported =>
    cases hsubmit : submits self i cls with
    | true =>
      rw [hsubmit] at h
      exact ⟨of_decide_eq_true h, hnone, cls, hactive, hsubmit, rfl⟩
    | false =>
      rw [hsubmit] at h
      cases h
  | _ => cases h

theorem dirty_of_opening {cls : AutoReport.Class} (hnone : (self.track i.link).event = none)
    (hactive : self.active i = some cls) (hsubmits : submits self i cls = true) :
    (self.observe i).1.dirty = true := by
  show (self.dirty || (self.observeLink i).2.2) = true
  rw [observeLink_of_none hnone, hactive]
  show (self.dirty || (submits self i cls || self.othersRecentlyOpened i.now i.link)) = true
  rw [hsubmits, Bool.true_or, Bool.or_true]

/-- The daemon knows of a ticket that it has just filed, and has saved it. -/
theorem fresh_ticket (hwall : (i.nowUnix.toNat : Int) = seconds offset i.now)
    (h : isTicket link (.observe i, (step d (.observe i)).2) = true) :
    Fresh offset link i.now (step d (.observe i)).1 := by
  obtain ⟨hlink, hnone, cls, hactive, hsubmits, htrack⟩ :=
    opening_of_observed (observed d.tracker i) h
  have hcovered : covered d.tracker i cls = true := by rw [covered, hsubmits, Bool.true_or]
  have hlast : ((d.tracker.observe i).1.track link).lastSubmit = some i.now := by
    rw [track_observe, if_pos hlink.symm, htrack]
    exact if_pos hcovered
  have hdirty := dirty_of_opening hnone hactive hsubmits
  obtain ⟨persisted, htaken, hlookup⟩ := saved_lastSubmit hdirty i.now i.nowUnix link
  refine ⟨⟨i.now, ?_, le_refl _⟩, persisted, toUnix i.now i.nowUnix i.now, ?_, ?_, ?_⟩
  · rw [track_step_observe]
    exact hlast
  · show (takeDirtyState (d.tracker.observe i).1 i.now i.nowUnix).2.or d.saved = _
    rw [htaken]
    rfl
  · rw [hlookup, hlast]
    rfl
  · exact seconds_le_toUnix hwall (le_refl _) (le_refl _)

/-- The arithmetic of the gap, in plain numbers. -/
theorem lt_gap_of_seconds {first t now : Nat}
    (hsecond : (first + offset) / 1000000000 ≤ (t + offset) / 1000000000)
    (hyoung : now ≤ first + 1799000000000) : now - t < 1800000000000 := by
  omega

/-- While the ticket is young, no second one is filed. -/
theorem no_ticket_of_fresh (h : Fresh offset link first d)
    (hyoung : i.now ≤ first + 1799000000000) :
    isTicket link (.observe i, (step d (.observe i)).2) = false := by
  refine Bool.eq_false_iff.mpr fun hticket => ?_
  obtain ⟨hlink, -, cls, -, hsubmits, -⟩ := opening_of_observed (observed d.tracker i) hticket
  obtain ⟨t, ht, hsecond⟩ := h.known
  have hwithin := (free_of_submits hsubmits).1
  rw [hlink, ht] at hwithin
  exact of_decide_eq_false hwithin (lt_gap_of_seconds hsecond hyoung)

/-! ## An outage -/

def isRestart : Call → Bool
  | .restart _ _ => true
  | _ => false

/-- An observation of the link. -/
def observes (link : String) : Call → Bool
  | .observe i => i.link = link
  | _ => false

/-- The two clocks go together and do not go back, and the monotonic one is a second past its
least reading. -/
structure Clocked (offset : Int) (calls : List Call) : Prop where
  ordered : calls.Pairwise fun c c' => c.now ≤ c'.now
  wall : ∀ c ∈ calls, (c.nowUnix.toNat : Int) = seconds offset c.now
  started : ∀ c ∈ calls, 1000000000 ≤ c.now

/-- Every observation of the link is one of an outage that has lasted since `began`. -/
def InOutage (trig : TriggerCfg F) (link : String) (began : Instant) (calls : List Call) : Prop :=
  ∀ i, .observe i ∈ calls → i.link = link →
    (conditions i.obs trig).outage = true ∧ began ≤ i.now

/-- The link's first observation after a restart comes at most 1799 seconds into the outage. -/
def Soon (link : String) (began : Instant) (log : List (Call × Option (Outcome F)))
    (_ : Daemon F) (c : Call) : Prop :=
  observes link c = true →
    Since (fun e => ¬observes link e.1 = true) (fun e => isRestart e.1 = true) log →
    c.now ≤ began + 1799000000000

instance decidableSoon (link : String) (began : Instant)
    (log : List (Call × Option (Outcome F))) (d : Daemon F) (c : Call) :
    Decidable (Soon link began log d c) := inferInstanceAs (Decidable (_ → _ → _ ≤ _))

/-- What is asked of a call: the clocks, the outage, and the restarts. -/
structure Guard (offset : Int) (trig : TriggerCfg F) (link : String) (began : Instant)
    (log : List (Call × Option (Outcome F))) (d : Daemon F) (c : Call) : Prop where
  ordered : ∀ e ∈ log, e.1.now ≤ c.now
  wall : (c.nowUnix.toNat : Int) = seconds offset c.now
  started : 1000000000 ≤ c.now
  outage : ∀ i, c = .observe i → i.link = link →
    (conditions i.obs trig).outage = true ∧ began ≤ i.now
  soon : Soon link began log d c

/-- A ticket of this outage at `first`: what the daemon remembers of it, unless 1799 seconds
have passed. -/
def Remembered (offset : Int) (link : String) (began : Instant)
    (log : List (Call × Option (Outcome F))) (d : Daemon F) (first : Instant) : Prop :=
  (began ≤ first ∧ 1000000000 ≤ first ∧ ∃ e ∈ log, e.1.now = first ∧ observes link e.1 = true) ∧
    ((∃ e ∈ log, first + 1799000000000 < e.1.now) ∨ Fresh offset link first d)

structure Inv (offset : Int) (trig : TriggerCfg F) (link : String) (began : Instant)
    (log : List (Call × Option (Outcome F))) (d : Daemon F) : Prop where
  trig : d.tracker.trig = trig
  opened : (d.tracker.track link).event = none →
    ¬Since (fun e => ¬isRestart e.1 = true) (fun e => observes link e.1 = true) log
  tickets : log.countP (isTicket link) = 0 ∨
    log.countP (isTicket link) = 1 ∧ ∃ first, Remembered offset link began log d first

/-- In an outage, an event of the link is open after every observation of it. -/
theorem event_of_outage (hobserved : Observed self i st outcome)
    (houtage : (conditions i.obs self.trig).outage = true) : st.event ≠ none := by
  have hactive : self.active i = some .Outage := if_pos houtage
  cases hobserved with
  | idle hnone hquiet => exact absurd (hactive.symm.trans hquiet) (by simp)
  | ended hev hcalm hclear =>
    exact absurd (houtage.symm.trans (calm_of_conditions hcalm).2.1) (by simp)
  | _ => nofun

theorem step_trig (d : Daemon F) (c : Call) : (step d c).1.tracker.trig = d.tracker.trig := by
  cases c with
  | observe i =>
    show (takeDirtyState (d.tracker.observe i).1 i.now i.nowUnix).1.trig = _
    unfold takeDirtyState
    split
    · rfl
    · rfl
  | restart now nowUnix =>
    show (boot _ _ now nowUnix d.saved).trig = _
    cases d.saved with
    | none => rfl
    | some persisted => rfl

variable {trig : TriggerCfg F} {began : Instant} {log : List (Call × Option (Outcome F))}
  {c : Call}

theorem remembered_step (h : Remembered offset link began log d first)
    (hguard : Guard offset trig link began log d c) :
    Remembered offset link began (log ++ [(c, (step d c).2)]) (step d c).1 first := by
  obtain ⟨⟨hbegan, hlate, e, he, htime, hobserves⟩, hkept⟩ := h
  have hfirst : first ≤ c.now := htime ▸ hguard.ordered e he
  refine ⟨⟨hbegan, hlate, e, List.mem_append_left _ he, htime, hobserves⟩, ?_⟩
  rcases hkept with ⟨e', he', hpassed⟩ | hfresh
  · exact Or.inl ⟨e', List.mem_append_left _ he', hpassed⟩
  · cases c with
    | observe i => exact Or.inr (fresh_observe hfresh hguard.wall hfirst)
    | restart now nowUnix =>
      by_cases hyoung : now ≤ first + 1799000000000
      · exact Or.inr (fresh_restart hfresh hguard.wall hlate hfirst hyoung)
      · refine Or.inl ⟨_, List.mem_append_right _ (List.mem_singleton_self _), ?_⟩
        exact Nat.lt_of_not_le hyoung

/-- Once a ticket has been filed, no second one is. -/
theorem no_second_ticket (h : Inv offset trig link began log d)
    (hguard : Guard offset trig link began log d c)
    (hremembered : Remembered offset link began log d first) :
    isTicket link (c, (step d c).2) = false := by
  refine Bool.eq_false_iff.mpr fun hticket => ?_
  cases c with
  | restart now nowUnix => cases hticket
  | observe i =>
    obtain ⟨⟨hbegan, -, e, he, -, hobserves⟩, hkept⟩ := hremembered
    obtain ⟨hlink, hnone, -⟩ := opening_of_observed (observed d.tracker i) hticket
    -- The link was observed in this outage and has no event: there was a restart since.
    have hrestarted := (since_or_since ⟨e, he, hobserves⟩).resolve_left
      (h.opened (hlink ▸ hnone))
    have hyoung : i.now ≤ first + 1799000000000 :=
      le_trans (hguard.soon (decide_eq_true hlink) hrestarted) (Nat.add_le_add_right hbegan _)
    rcases hkept with ⟨e', he', hpassed⟩ | hfresh
    · exact absurd (lt_of_lt_of_le hpassed (hguard.ordered e' he')) (not_lt_of_ge hyoung)
    · rw [no_ticket_of_fresh hfresh hyoung] at hticket
      cases hticket

theorem opened_step (h : Inv offset trig link began log d)
    (hguard : Guard offset trig link began log d c)
    (hnone : ((step d c).1.tracker.track link).event = none) :
    ¬Since (fun e => ¬isRestart e.1 = true) (fun e => observes link e.1 = true)
      (log ++ [(c, (step d c).2)]) := by
  rw [since_snoc]
  cases c with
  | restart now nowUnix =>
    rintro (hobserves | ⟨-, hrunning⟩)
    · cases hobserves
    · exact hrunning rfl
  | observe i =>
    rw [track_step_observe, track_observe] at hnone
    by_cases hsame : link = i.link
    · rw [if_pos hsame] at hnone
      have houtage := (hguard.outage i rfl hsame.symm).1
      rw [← h.trig] at houtage
      exact absurd hnone (event_of_outage (observed d.tracker i) houtage)
    · rw [if_neg hsame] at hnone
      rintro (hobserves | ⟨hsince, -⟩)
      · exact hsame (of_decide_eq_true hobserves).symm
      · exact h.opened hnone hsince

theorem inv_step (log : List (Call × Option (Outcome F))) (d : Daemon F) (c : Call)
    (h : Inv offset trig link began log d) (hguard : Guard offset trig link began log d c) :
    Inv offset trig link began (log ++ [(c, (step d c).2)]) (step d c).1 where
  trig := (step_trig d c).trans h.trig
  opened := opened_step h hguard
  tickets := by
    rw [List.countP_append, List.countP_singleton]
    rcases h.tickets with hzero | ⟨hone, first, hremembered⟩
    · rw [hzero]
      cases hticket : isTicket link (c, (step d c).2) with
      | false => exact Or.inl rfl
      | true =>
        right
        refine ⟨rfl, c.now, ?_⟩
        cases c with
        | restart now nowUnix => cases hticket
        | observe i =>
          have hlink := (opening_of_observed (observed d.tracker i) hticket).1
          refine ⟨⟨(hguard.outage i rfl hlink).2, hguard.started, _,
            List.mem_append_right _ (List.mem_singleton_self _), rfl,
            decide_eq_true hlink⟩, Or.inr ?_⟩
          exact fresh_ticket hguard.wall hticket
    · rw [hone, no_second_ticket h hguard hremembered]
      exact Or.inr ⟨rfl, first, remembered_step hremembered hguard⟩

/-- From any state of the daemon: an outage of any length, with any number of restarts, after
each of which the link is first observed at most 1799 seconds into the outage, files at most one
ticket with which an event of the link opens. -/
theorem one_ticket_across_restarts {calls : List Call} (hclocked : Clocked offset calls)
    (houtage : InOutage d.tracker.trig link began calls)
    (hsoon : Mealy.Along step (Soon link began) [] d calls) :
    (Mealy.log step d calls).countP (isTicket link) ≤ 1 := by
  have hguard : Mealy.Along step (Guard offset d.tracker.trig link began) [] d calls := by
    refine Mealy.along_iff.mpr fun before c rest hsplit => ?_
    have hmem : c ∈ calls := hsplit ▸ List.mem_append_right _ (List.mem_cons_self ..)
    exact ⟨Mealy.along_iff.mp (Mealy.along_of_pairwise d hclocked.ordered) before c rest hsplit,
      hclocked.wall c hmem, hclocked.started c hmem,
      fun i hi hlink => houtage i (hi ▸ hmem) hlink,
      Mealy.along_iff.mp hsoon before c rest hsplit⟩
  have hinv := Mealy.invariant_along (I := Inv offset d.tracker.trig link began) inv_step
    (h := []) ⟨rfl, fun _ => not_since_nil, Or.inl rfl⟩ hguard
  rcases hinv.tickets with hzero | ⟨hone, -⟩
  · exact le_trans (le_of_eq hzero) (Nat.zero_le 1)
  · exact le_of_eq hone

end

/-- Link `a` is down from second 10 on; the daemon is restarted once, and observes the link again
a second later. -/
def outageRun (restartAt : Nat) : List Call :=
  [.observe (downAt "a" 10),
    .restart (restartAt * 1000000000) (UInt64.ofNat (1000 + restartAt)),
    .observe (downAt "a" (restartAt + 1))]

/-- The wall clock is 1000 seconds ahead. -/
theorem outageRun_clocked {restartAt : Nat} (hlate : 10 ≤ restartAt)
    (hearly : restartAt < 1000000) : Clocked 1000000000000 (outageRun restartAt) where
  ordered := by
    refine .cons ?_ (.cons ?_ (List.pairwise_singleton _ _))
    · intro c hc
      fin_cases hc
      · show 10 * 1000000000 ≤ restartAt * 1000000000
        omega
      · show 10 * 1000000000 ≤ (restartAt + 1) * 1000000000
        omega
    · intro c hc
      fin_cases hc
      show restartAt * 1000000000 ≤ (restartAt + 1) * 1000000000
      omega
  wall := by
    have hwall : ∀ second, second < 1000001 →
        ((UInt64.ofNat (1000 + second)).toNat : Int) =
          seconds 1000000000000 (second * 1000000000) := by
      intro second hsecond
      rw [UInt64.toNat_ofNat_of_lt' (by show _ < 18446744073709551616; omega), seconds]
      omega
    intro c hc
    fin_cases hc
    · exact hwall 10 (by decide)
    · exact hwall restartAt (by omega)
    · exact hwall (restartAt + 1) (by omega)
  started := by
    intro c hc
    fin_cases hc
    · show 1000000000 ≤ 10 * 1000000000
      decide
    · show 1000000000 ≤ restartAt * 1000000000
      omega
    · show 1000000000 ≤ (restartAt + 1) * 1000000000
      omega

theorem outageRun_inOutage {restartAt : Nat} (hlate : 10 ≤ restartAt) :
    InOutage testTrigger "a" 10000000000 (outageRun restartAt) := by
  have hdown : (conditions (downAt "a" 10).obs testTrigger).outage = true := by decide +kernel
  intro i hi _
  rcases List.mem_cons.mp hi with hi | hi
  · cases hi
    exact ⟨hdown, le_refl _⟩
  · rcases List.mem_cons.mp hi with hi | hi
    · cases hi
    · cases List.mem_singleton.mp hi
      refine ⟨hdown, ?_⟩
      show 10000000000 ≤ (restartAt + 1) * 1000000000
      omega

/-- A restart ten minutes into the outage. -/
theorem one_ticket_across_early_restart :
    (Mealy.log step ⟨.new testTrigger testTracker, none⟩ (outageRun 610)).countP
      (isTicket "a") ≤ 1 :=
  one_ticket_across_restarts (outageRun_clocked (by decide) (by decide))
    (outageRun_inOutage (by decide)) (by decide +kernel)

/-- A restart half an hour into the outage: the ticket time saved is forgotten, and the link's
next observation files a second ticket. -/
theorem restart_files_again :
    Clocked 1000000000000 (outageRun 1810) ∧
      InOutage testTrigger "a" 10000000000 (outageRun 1810) ∧
      (Mealy.log step ⟨.new testTrigger testTracker, none⟩ (outageRun 1810)).countP
        (isTicket "a") = 2 :=
  ⟨outageRun_clocked (by decide) (by decide), outageRun_inOutage (by decide), by decide +kernel⟩

end Mlvpn.Ports.TrackerRestart
