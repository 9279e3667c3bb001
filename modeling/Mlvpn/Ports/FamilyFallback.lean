import Mlvpn.Ports.TxDispatch
import Mlvpn.Verified.PastTime

/-!
# Falling back to the other address family

`family_fallback_watch` looks at a dual-stack link every five seconds.  When the link has
been out of `Up` for long enough it probes the other address family, with back-off between
failed probes, and moves the link over if the peer answers.  A probe runs for seconds without
the link's lock.  What may have happened meanwhile is checked before the switch, but for one
thing: the link may have been disabled.

The watcher is a machine whose steps end where it waits or takes the lock.  The clock is part
of the state; the link's state, its remote and its being enabled change at any time.  The
events of a run are the ticks with what they found, the probes with their outcomes, and the
switches.

## Main results

* `inv_step`: the watcher's timers and its count of failures, by the events so far.
* `allowed_step`: what the next event may be.
* `fallback_law_iff`: the watcher keeps its rules exactly when no probe that is answered finds
  its link disabled.
-/

namespace Mlvpn.Ports.FamilyFallback

open Verified PastTime
open FecRecovery (Instant)
open TxDispatch (LinkState)

def FAMILY_FALLBACK_AFTER : Nat := 30000000000
def LADDER_MINS : List Nat := [1, 2, 5, 10, 30]

/-- The back-off after a number of consecutive failures, in nanoseconds. -/
def ladder : Nat → Nat
  | 0 => 0
  | n + 1 => 60000000000 * LADDER_MINS.getD (min n (LADDER_MINS.length - 1)) 0

def familyProbeBackoff (failures : UInt32) : Nat := ladder failures.toNat

/-! ## The watcher -/

variable {Addr : Type*}

/-- What the watcher reads and writes of a `Link`. -/
structure Link (Addr : Type*) where
  state : LinkState
  adminDisabled : Bool
  remote : Option Addr
deriving DecidableEq

/-- The link is none of the watcher's business. -/
def Link.held (link : Link Addr) : Bool := decide (link.state = .Up) || link.adminDisabled

/-- `Link::switch_family`, without the socket. -/
def Link.switchFamily (link : Link Addr) (remote : Addr) : Link Addr :=
  { link with remote := some remote }

/-- Where the loop is: waiting for its tick, done with the lock, in a probe, or with an answer
and about to take the lock again.  `current` is the remote that the tick found. -/
inductive Place (Addr : Type*) where
  | waiting
  | judging (current : Addr)
  | probing (current : Addr)
  | answered (current alt : Addr)
deriving DecidableEq

structure Watch (Addr : Type*) where
  link : Link Addr
  now : Instant
  downSince : Option Instant
  lastTry : Option Instant
  failures : UInt32
  place : Place Addr

/-- `elapse` to `setEnabled` come from elsewhere.  `judge` reads the clock four times, with
these delays in between. -/
inductive Action (Addr : Type*) where
  | elapse (nanos : Nat)
  | setState (state : LinkState)
  | learn (remote : Option Addr)
  | setEnabled (enabled : Bool)
  | tick
  | judge (delay delay' delay'' : Nat)
  | answer (alt : Option Addr)
  | commit

inductive Event (Addr : Type*) where
  | found (now : Instant) (held : Bool)
  | probed (now : Instant)
  | failed
  | succeeded
  | switched (link : Link Addr) (current : Addr)
deriving DecidableEq

namespace Watch

/-- The tick, under the link's lock. -/
def tick (w : Watch Addr) : Watch Addr × Option (Event Addr) :=
  match w.place with
  | .waiting =>
      if w.link.held then
        ({ w with downSince := none, lastTry := none, failures := 0 }, some (.found w.now true))
      else
        ({ w with place := match w.link.remote with
            | none => .waiting
            | some current => .judging current }, some (.found w.now false))
  | _ => (w, none)

/-- Long enough down, and long enough after the last probe. -/
def judge (w : Watch Addr) (delay delay' delay'' : Nat) : Watch Addr × Option (Event Addr) :=
  match w.place with
  | .judging current =>
      let since := w.downSince.getD w.now
      let checked := w.now + delay
      let rechecked := checked + delay'
      if checked - since < FAMILY_FALLBACK_AFTER ∨
          (w.lastTry.any fun t => decide (rechecked - t < familyProbeBackoff w.failures)) then
        ({ w with now := rechecked, downSince := some since, place := .waiting }, none)
      else
        let started := rechecked + delay''
        ({ w with now := started, downSince := some since, lastTry := some started
                  place := .probing current }, some (.probed started))
  | _ => (w, none)

/-- The probe ends; failures saturate. -/
def answer (w : Watch Addr) (alt : Option Addr) : Watch Addr × Option (Event Addr) :=
  match w.place with
  | .probing current =>
      match alt with
      | some alt => ({ w with failures := 0, place := .answered current alt }, some .succeeded)
      | none =>
          ({ w with
              failures := UInt32.ofNat (min (w.failures.toNat + 1) (2 ^ 32 - 1))
              place := .waiting }, some .failed)
  | _ => (w, none)

/-- The recheck under the lock. -/
def commit [DecidableEq Addr] (w : Watch Addr) : Watch Addr × Option (Event Addr) :=
  match w.place with
  | .answered current alt =>
      if w.link.state ≠ .Up ∧ w.link.remote = some current then
        ({ w with link := w.link.switchFamily alt, downSince := none, place := .waiting },
          some (.switched w.link current))
      else ({ w with place := .waiting }, none)
  | _ => (w, none)

def step [DecidableEq Addr] (w : Watch Addr) : Action Addr → Watch Addr × Option (Event Addr)
  | .elapse nanos => ({ w with now := w.now + nanos }, none)
  | .setState state => ({ w with link := { w.link with state } }, none)
  | .learn remote => ({ w with link := { w.link with remote } }, none)
  | .setEnabled enabled => ({ w with link := { w.link with adminDisabled := !enabled } }, none)
  | .tick => w.tick
  | .judge delay delay' delay'' => w.judge delay delay' delay''
  | .answer alt => w.answer alt
  | .commit => w.commit

/-- As the task starts, on any link. -/
def init (link : Link Addr) (now : Instant) : Watch Addr :=
  { link, now, downSince := none, lastTry := none, failures := 0, place := .waiting }

end Watch

/-- The events of a run. -/
def events [DecidableEq Addr] (w : Watch Addr) (actions : List (Action Addr)) : List (Event Addr) :=
  (Mealy.log Watch.step w actions).filterMap Prod.snd

/-! ## The rules -/

/-- Consecutive failed probes: a success, or a tick that found the link up or disabled,
starts the count anew. -/
def failedSince (n : Nat) : Event Addr → Nat
  | .failed => n + 1
  | .succeeded => 0
  | .found _ true => 0
  | _ => n

def failedSoFar (history : List (Event Addr)) : Nat := history.foldl failedSince 0

/-- The last probe, if no tick has found the link up or disabled since. -/
def probedSince (last : Option Instant) : Event Addr → Option Instant
  | .probed now => some now
  | .found _ true => none
  | _ => last

def lastProbe (history : List (Event Addr)) : Option Instant := history.foldl probedSince none

/-- What may happen after a history: a probe only when no tick of the last 30 seconds found
the link up or disabled, and not before the back-off is over; a switch only of a link that is
neither up nor disabled and still has the remote the probe began with. -/
def Allowed (history : List (Event Addr)) : Event Addr → Prop
  | .probed now =>
      (∀ tick, .found tick true ∈ history → tick + FAMILY_FALLBACK_AFTER ≤ now) ∧
        ∀ last ∈ lastProbe history, last + ladder (failedSoFar history) ≤ now
  | .switched link current =>
      link.state ≠ .Up ∧ link.adminDisabled = false ∧ link.remote = some current
  | _ => True

/-- Every event was allowed when it happened. -/
def Law (history : List (Event Addr)) : Prop :=
  ∀ before e after, history = before ++ e :: after → Allowed before e

/-- An answered probe that is about to move its link over does not find it disabled. -/
def Enabled (w : Watch Addr) : Action Addr → Prop
  | .commit => match w.place with
      | .answered current _ => w.link.state ≠ .Up → w.link.remote = some current →
          w.link.adminDisabled = false
      | _ => True
  | _ => True

/-! ## Histories -/

theorem law_snoc {history : List (Event Addr)} {e : Event Addr} :
    Law (history ++ [e]) ↔ Law history ∧ Allowed history e :=
  forall_split_snoc

theorem law_append_toList {history : List (Event Addr)} {next : Option (Event Addr)} :
    Law (history ++ next.toList) ↔ Law history ∧ ∀ e ∈ next, Allowed history e := by
  cases next with
  | none => simp
  | some e =>
    rw [Option.toList_some, law_snoc]
    simp

theorem events_snoc [DecidableEq Addr] (w : Watch Addr) (actions : List (Action Addr))
    (a : Action Addr) :
    events w (actions ++ [a]) =
      events w actions ++ ((Mealy.run Watch.step w actions).step a).2.toList := by
  rw [events, Mealy.log_append, List.filterMap_append]
  congr 1

/-! ## The timers, by the history -/

/-- The watcher's variables are what the history says. -/
structure Inv (history : List (Event Addr)) (w : Watch Addr) : Prop where
  past : ∀ tick, .found tick true ∈ history → tick ≤ w.now
  down : ∀ since ∈ w.downSince, since ≤ w.now ∧
    ∀ tick, .found tick true ∈ history → tick ≤ since
  failures : w.failures.toNat = min (failedSoFar history) (2 ^ 32 - 1)
  lastTry : w.lastTry = lastProbe history
  tried : ∀ t ∈ w.lastTry, t ≤ w.now

theorem ladder_min (n : Nat) : ladder (min n (2 ^ 32 - 1)) = ladder n := by
  rcases Nat.le_total n (2 ^ 32 - 1) with hle | hle
  · rw [min_eq_left hle]
  · -- Both are beyond the end of the ladder.
    obtain ⟨m, rfl⟩ : ∃ m, n = m + 1 := ⟨n - 1, by omega⟩
    rw [min_eq_right hle]
    show 60000000000 * LADDER_MINS.getD (min (2 ^ 32 - 2) 4) 0 =
      60000000000 * LADDER_MINS.getD (min m 4) 0
    rw [min_eq_right (show 4 ≤ m by omega)]
    rfl

section

variable {history : List (Event Addr)} {w w' : Watch Addr}

/-- The clock moves on, and nothing else that the history speaks of. -/
theorem Inv.later (h : Inv history w) (hnow : w.now ≤ w'.now) (hdown : w'.downSince = w.downSince)
    (hfailures : w'.failures = w.failures) (htry : w'.lastTry = w.lastTry) : Inv history w' where
  past tick htick := (h.past tick htick).trans hnow
  down since hsince := by
    obtain ⟨hle, hticks⟩ := h.down since (hdown ▸ hsince)
    exact ⟨hle.trans hnow, hticks⟩
  failures := hfailures ▸ h.failures
  lastTry := htry ▸ h.lastTry
  tried t ht := (h.tried t (htry ▸ ht)).trans hnow

/-- A step without an event adds nothing to the history. -/
theorem Inv.silent (h : Inv history w) :
    Inv (history ++ (none : Option (Event Addr)).toList) w := by
  rw [Option.toList_none, List.append_nil]
  exact h

theorem Inv.backoff_eq (h : Inv history w) :
    familyProbeBackoff w.failures = ladder (failedSoFar history) := by
  rw [familyProbeBackoff, h.failures, ladder_min]

theorem mem_snoc_iff {e : Event Addr} {tick : Instant} (h : e ≠ .found tick true) :
    .found tick true ∈ history ++ [e] ↔ .found tick true ∈ history := by
  rw [List.mem_append, List.mem_singleton, or_iff_left h.symm]

section

variable (h : Inv history w)
include h

/-- The invariant after an event other than a tick that finds the link up or disabled, from
what it says of failures and probes. -/
theorem Inv.snoc {e : Event Addr} (he : ∀ tick, e ≠ .found tick true)
    (hfailures : w'.failures.toNat = min (failedSince (failedSoFar history) e) (2 ^ 32 - 1))
    (htry : w'.lastTry = probedSince (lastProbe history) e) (htried : ∀ t ∈ w'.lastTry, t ≤ w'.now)
    (hnow : w.now ≤ w'.now)
    (hdown : ∀ since ∈ w'.downSince, since ≤ w'.now ∧
      ∀ tick, .found tick true ∈ history → tick ≤ since) :
    Inv (history ++ [e]) w' where
  past tick htick := (h.past tick ((mem_snoc_iff (he tick)).mp htick)).trans hnow
  down since hsince := by
    obtain ⟨hle, hticks⟩ := hdown since hsince
    exact ⟨hle, fun tick htick => hticks tick ((mem_snoc_iff (he tick)).mp htick)⟩
  failures := by rw [failedSoFar, List.foldl_concat]; exact hfailures
  lastTry := by rw [lastProbe, List.foldl_concat]; exact htry
  tried := htried

theorem inv_tick : Inv (history ++ w.tick.2.toList) w.tick.1 := by
  unfold Watch.tick
  split
  · split
    · refine ⟨fun tick htick => ?_, nofun, ?_, ?_, nofun⟩
      · rcases List.mem_append.mp htick with htick | htick
        · exact h.past tick htick
        · cases List.mem_singleton.mp htick
          exact le_refl _
      · rw [Option.toList_some, failedSoFar, List.foldl_concat, ← failedSoFar]
        rfl
      · rw [Option.toList_some, lastProbe, List.foldl_concat, ← lastProbe]
        rfl
    · exact h.snoc nofun h.failures h.lastTry h.tried (le_refl _) h.down
  · exact h.silent

/-- The time since when the link is down is after every tick that found it up or disabled. -/
theorem Inv.since : w.downSince.getD w.now ≤ w.now ∧
    ∀ tick, .found tick true ∈ history → tick ≤ w.downSince.getD w.now := by
  cases hsince : w.downSince with
  | none => exact ⟨le_refl _, h.past⟩
  | some since => exact h.down since hsince

theorem inv_judge (delay delay' delay'' : Nat) :
    Inv (history ++ (w.judge delay delay' delay'').2.toList) (w.judge delay delay' delay'').1 := by
  unfold Watch.judge
  split
  · dsimp only
    split
    · have hnow : w.now ≤ w.now + delay + delay' :=
        (Nat.le_add_right _ _).trans (Nat.le_add_right _ _)
      refine Inv.silent ⟨fun tick htick => (h.past tick htick).trans hnow, fun since hsince => ?_,
        h.failures, h.lastTry, fun t ht => (h.tried t ht).trans hnow⟩
      cases hsince
      exact ⟨h.since.1.trans hnow, h.since.2⟩
    · have hnow : w.now ≤ w.now + delay + delay' + delay'' :=
        ((Nat.le_add_right _ _).trans (Nat.le_add_right _ _)).trans (Nat.le_add_right _ _)
      refine h.snoc nofun h.failures rfl (fun t ht => ?_) hnow fun since hsince => ?_
      · cases ht
        exact le_refl _
      · cases hsince
        exact ⟨h.since.1.trans hnow, h.since.2⟩
  · exact h.silent

theorem inv_answer (alt : Option Addr) :
    Inv (history ++ (w.answer alt).2.toList) (w.answer alt).1 := by
  unfold Watch.answer
  split
  · split
    · exact h.snoc nofun rfl h.lastTry h.tried (le_refl _) h.down
    · refine h.snoc nofun ?_ h.lastTry h.tried (le_refl _) h.down
      have hcount := h.failures
      show (UInt32.ofNat (min (w.failures.toNat + 1) (2 ^ 32 - 1))).toNat =
        min (failedSoFar history + 1) (2 ^ 32 - 1)
      rw [UInt32.toNat_ofNat', Nat.mod_eq_of_lt (by omega)]
      omega
  · exact h.silent

theorem inv_commit [DecidableEq Addr] : Inv (history ++ w.commit.2.toList) w.commit.1 := by
  unfold Watch.commit
  split
  · split
    · exact h.snoc nofun h.failures h.lastTry h.tried (le_refl _) nofun
    · exact Inv.silent (h.later (le_refl _) rfl rfl rfl)
  · exact h.silent

theorem inv_step [DecidableEq Addr] (a : Action Addr) :
    Inv (history ++ (w.step a).2.toList) (w.step a).1 := by
  cases a with
  | tick => exact inv_tick h
  | judge delay delay' delay'' => exact inv_judge h delay delay' delay''
  | answer alt => exact inv_answer h alt
  | commit => exact inv_commit h
  | elapse nanos => exact Inv.silent (h.later (Nat.le_add_right _ _) rfl rfl rfl)
  | setState state => exact Inv.silent (h.later (le_refl _) rfl rfl rfl)
  | learn remote => exact Inv.silent (h.later (le_refl _) rfl rfl rfl)
  | setEnabled enabled => exact Inv.silent (h.later (le_refl _) rfl rfl rfl)

/-- A probe starts late enough after the ticks and probes before. -/
theorem allowed_judge (delay delay' delay'' : Nat) :
    ∀ e ∈ (w.judge delay delay' delay'').2, Allowed history e := by
  unfold Watch.judge
  split
  · dsimp only
    split
    · exact fun e he => nomatch he
    case isFalse hready =>
      rintro e ⟨rfl⟩
      obtain ⟨hlong, hbackoff⟩ := not_or.mp hready
      refine ⟨fun tick htick => ?_, fun last hlast => ?_⟩
      · have hle := h.since.2 tick htick
        have hwait : w.downSince.getD w.now + FAMILY_FALLBACK_AFTER ≤ w.now + delay :=
          Nat.add_le_of_le_sub' (h.since.1.trans (Nat.le_add_right _ _)) (Nat.not_lt.mp hlong)
        calc tick + FAMILY_FALLBACK_AFTER
            ≤ w.downSince.getD w.now + FAMILY_FALLBACK_AFTER := Nat.add_le_add_right hle _
          _ ≤ w.now + delay := hwait
          _ ≤ w.now + delay + delay' + delay'' := (Nat.le_add_right _ _).trans
              (Nat.le_add_right _ _)
      · rw [← h.lastTry] at hlast
        rw [Option.mem_def.mp hlast, Option.any_some, decide_eq_true_eq, h.backoff_eq,
          Nat.not_lt] at hbackoff
        have hpast : last ≤ w.now + delay + delay' :=
          (h.tried last hlast).trans ((Nat.le_add_right _ _).trans (Nat.le_add_right _ _))
        exact (Nat.add_le_of_le_sub' hpast hbackoff).trans (Nat.le_add_right _ _)
  · exact fun e he => nomatch he

end

/-- A switch is allowed just when the link is enabled. -/
theorem allowed_commit_iff [DecidableEq Addr] :
    (∀ e ∈ w.commit.2, Allowed history e) ↔ Enabled w .commit := by
  unfold Watch.commit Enabled
  split
  case h_1 current alt _ =>
    dsimp only
    split
    case isTrue hswitch =>
      constructor
      · exact fun h _ _ => (h _ rfl).2.1
      · rintro h e ⟨rfl⟩
        exact ⟨hswitch.1, h hswitch.1 hswitch.2, hswitch.2⟩
    case isFalse hstay =>
      exact iff_of_true (fun e he => nomatch he)
        fun hstate hremote => absurd ⟨hstate, hremote⟩ hstay
  case h_2 => exact iff_of_true (fun e he => nomatch he) trivial

/-- The next event is allowed exactly when an answered probe does not find its link
disabled. -/
theorem allowed_step [DecidableEq Addr] (h : Inv history w) (a : Action Addr) :
    (∀ e ∈ (w.step a).2, Allowed history e) ↔ Enabled w a := by
  cases a with
  | commit => exact allowed_commit_iff
  | judge delay delay' delay'' => exact iff_of_true (allowed_judge h delay delay' delay'') trivial
  | tick =>
    refine iff_of_true (fun e he => ?_) trivial
    rw [Watch.step, Watch.tick] at he
    split at he
    · split at he
      · cases he
        trivial
      · cases he
        trivial
    · cases he
  | answer alt =>
    refine iff_of_true (fun e he => ?_) trivial
    rw [Watch.step, Watch.answer] at he
    split at he
    · split at he
      · cases he
        trivial
      · cases he
        trivial
    · cases he
  | _ => exact iff_of_true (fun e he => nomatch he) trivial

end

/-! ## Whole runs -/

theorem inv_run [DecidableEq Addr] (link : Link Addr) (now : Instant)
    (actions : List (Action Addr)) :
    Inv (events (.init link now) actions) (Mealy.run Watch.step (.init link now) actions) := by
  induction actions using List.reverseRecOn with
  | nil => exact ⟨nofun, nofun, rfl, rfl, nofun⟩
  | append_singleton actions a ih =>
    rw [events_snoc, Mealy.run_append]
    exact inv_step ih a

/-- Whatever happens to the link, its remote and the probes: the watcher keeps its rules
exactly when no probe that is answered and about to move its link over finds it disabled. -/
theorem fallback_law_iff [DecidableEq Addr] (link : Link Addr) (now : Instant)
    (actions : List (Action Addr)) :
    Law (events (.init link now) actions) ↔
      Mealy.Along Watch.step (fun _ w a => Enabled w a) [] (.init link now) actions := by
  induction actions using List.reverseRecOn with
  | nil =>
      refine iff_of_true (fun before e after heq => ?_) trivial
      exact absurd (congrArg List.length heq) (by simp [events])
  | append_singleton actions a ih =>
      rw [events_snoc, law_append_toList, Mealy.along_append, ih,
        allowed_step (inv_run link now actions) a]
      exact and_congr_right fun _ => (and_iff_left trivial).symm

/-- A link goes down on remote 6 and is disabled two seconds into its probe, which is answered
on remote 4. -/
def disabledDuringProbe : List (Action Nat) :=
  [.tick, .judge 0 0 0, .elapse 30000000000, .tick, .judge 0 0 0, .elapse 2000000000,
    .setEnabled false, .elapse 1000000000, .answer (some 4), .commit]

/-- The disabled link is moved over. -/
theorem disabled_link_switched :
    (events (.init ⟨.Down, false, some 6⟩ 0) disabledDuringProbe).getLast? =
        some (.switched ⟨.Down, true, some 6⟩ 6) ∧
      (Mealy.run Watch.step (.init ⟨.Down, false, some 6⟩ 0) disabledDuringProbe).link =
        ⟨.Down, true, some 4⟩ := by
  decide +kernel

end Mlvpn.Ports.FamilyFallback
