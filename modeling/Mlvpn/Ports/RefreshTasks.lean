import Mlvpn.Ports.LinkMonitor
import Mlvpn.Ports.SchedulingPick

/-!
# Tasks that refresh the scheduler

A probe reply in `handle_incoming`, a timeout sweep in `link_prober` and
`record_send_failure_as_miss` all do the same: under the link's lock they record what
happened and call `update_link_state`, then they copy one link after the other
(`snapshot_links`), and then they take the scheduler's lock and refresh it with the copies.
Any number of such tasks run at once, and other tasks use the scheduler and measure links in
between; a list of actions is an interleaving.

A refresh installs what its copies say, however old they are.  The task that took a link
down has yet to refresh, which would set the scheduler right; but another task may still hold
a copy of the link from before, and refresh after it.

## Main results

* `sound_step`, `sound_run`: whoever uses or holds a link as up that is not has a task pending
  that will correct it.
* `no_down_link_in_use`: in a quiet state every link in use is up, if the tasks refreshed in
  order.
-/

namespace Mlvpn.Ports.RefreshTasks

open Verified Scheduling
open ConfigFile (SchedulerConfig)
open FecRecovery (Instant)
open TxDispatch (LinkState)
open Verified.Floating (ofRat)

variable {F : Type*} [Floating F] {n m : Nat}

/-! ## Links and tasks -/

/-- A `Link` with everything that its copies are scored by. -/
structure LiveLink (F : Type*) where
  health : LinkMonitor.Link F
  adminDisabled : Bool
  weight : F
  bandwidthCapMbps : Option F
  rxThroughputMbps : Option F
  activeBandwidthMbps : Option F

namespace LiveLink

omit [Floating F] in
/-- The clone in a snapshot. -/
def clone (l : LiveLink F) : Link F where
  state := l.health.state
  adminDisabled := l.adminDisabled
  weight := l.weight
  bandwidthCapMbps := l.bandwidthCapMbps
  rttMs := l.health.stats.rttMs.value
  jitterMs := l.health.stats.jitterMs.value
  lossRate := l.health.stats.lossRate.value
  rxThroughputMbps := l.rxThroughputMbps
  activeBandwidthMbps := l.activeBandwidthMbps
  consecutiveMisses := l.health.stats.consecutiveMisses

end LiveLink

/-- What a task records before it updates the link: a reply, or the misses of a sweep or of a
failed send. -/
inductive Outcome (F : Type*) where
  | reply (rttMs : F) (now updatedAt : Instant)
  | misses (at_ : List Instant) (updatedAt : Instant)

/-- The calls it makes under the link's lock. -/
def Outcome.calls : Outcome F → List (LinkMonitor.Call F)
  | .reply rttMs now updatedAt => [.recordRtt rttMs now, .updateLinkState updatedAt]
  | .misses at_ updatedAt => at_.map .recordMiss ++ [.updateLinkState updatedAt]

/-- Between two events, or with the copies made so far. -/
inductive Task (F : Type*) where
  | idle
  | copying (copies : List (Link F))

namespace Task

def isIdle : Task F → Bool
  | .idle => true
  | .copying _ => false

def copies : Task F → List (Link F)
  | .idle => []
  | .copying copies => copies

end Task

structure System (F : Type*) (n m : Nat) where
  cfg : SchedulerConfig F
  links : Fin n → LiveLink F
  scheduler : Scheduler F
  tasks : Fin m → Task F

inductive Action (F : Type*) (n m : Nat) where
  /-- A task records an outcome on a link and updates its state. -/
  | probe (t : Fin m) (i : Fin n) (outcome : Outcome F)
  /-- It copies the next link. -/
  | copy (t : Fin m)
  /-- It refreshes the scheduler, once all are copied. -/
  | refresh (t : Fin m) (peerPrimaryIndex : Option Nat)
  /-- Other tasks write the rest of a link, and call the scheduler otherwise. -/
  | measure (i : Fin n) (adminDisabled : Bool) (rxThroughputMbps activeBandwidthMbps : Option F)
  | use (op : Op F n)

namespace System

def step (s : System F n m) : Action F n m → System F n m
  | .probe t i outcome =>
      match s.tasks t with
      | .idle =>
          let link := s.links i
          { s with
            links := Function.update s.links i
              { link with health := link.health.run s.cfg outcome.calls }
            tasks := Function.update s.tasks t (.copying []) }
      | .copying _ => s
  | .copy t =>
      match s.tasks t with
      | .idle => s
      | .copying copies =>
          if h : copies.length < n then
            { s with
              tasks := Function.update s.tasks t
                (.copying (copies ++ [(s.links ⟨copies.length, h⟩).clone])) }
          else s
  | .refresh t peerPrimaryIndex =>
      match s.tasks t with
      | .idle => s
      | .copying copies =>
          if copies.length = n then
            { s with
              scheduler := s.scheduler.refresh copies s.cfg peerPrimaryIndex
              tasks := Function.update s.tasks t .idle }
          else s
  | .measure i adminDisabled rxThroughputMbps activeBandwidthMbps =>
      { s with
        links := Function.update s.links i
          { s.links i with adminDisabled, rxThroughputMbps, activeBandwidthMbps } }
  | .use op =>
      match op with
      | .refresh .. => s
      | op => { s with scheduler := s.scheduler.step op }

/-- The same as a machine without answers. -/
def act (s : System F n m) (a : Action F n m) : System F n m × Unit := (s.step a, ())

/-- At the start no task is at work and nothing is scheduled. -/
def init (cfg : SchedulerConfig F) (links : Fin n → LiveLink F) : System F n m where
  cfg := cfg
  links := links
  scheduler := .new
  tasks := fun _ => .idle

/-! ## What should hold -/

/-- The state of a link right now. -/
def stateOf (s : System F n m) (i : Fin n) : LinkState := (s.links i).health.state

/-- The scheduler may pick the link. -/
def InUse (s : Scheduler F) (i : Nat) : Prop := i ∈ indices s.entries ∨ s.primary = some i

/-- No task is between its update and the end of its refresh. -/
def Quiet (s : System F n m) : Prop := ∀ t, (s.tasks t).isIdle = true

/-- The state of the link in the copy that the task has of it. -/
def copyState (s : System F n m) (t : Fin m) (i : Nat) : Option LinkState :=
  (s.tasks t).copies[i]?.map (·.state)

/-- A task that holds the link as up when it no longer is. -/
def Stale (s : System F n m) (t : Fin m) (i : Fin n) : Prop :=
  s.copyState t i = some .Up ∧ s.stateOf i ≠ .Up

/-- A task under way that does not hold the link as up: not copied yet, or not up then. -/
def Pending (s : System F n m) (t : Fin m) (i : Nat) : Prop :=
  (s.tasks t).isIdle = false ∧ s.copyState t i ≠ some .Up

/-- A refresh that leaves behind no other task with a stale copy, unless for that link a
further task is pending. -/
def InOrder (s : System F n m) : Action F n m → Prop
  | .refresh t _ => (s.tasks t).copies.length = n → ∀ t', t' ≠ t → ∀ i : Fin n, s.Stale t' i →
      ∃ t'', t'' ≠ t ∧ s.Pending t'' i
  | _ => True

instance (s : System F n m) : Decidable s.Quiet :=
  inferInstanceAs (Decidable (∀ t, (s.tasks t).isIdle = true))

instance (s : System F n m) (t : Fin m) (i : Fin n) : Decidable (s.Stale t i) :=
  inferInstanceAs (Decidable (_ ∧ _))

instance (s : System F n m) (t : Fin m) (i : Nat) : Decidable (s.Pending t i) :=
  inferInstanceAs (Decidable (_ ∧ _))

instance (s : System F n m) : (a : Action F n m) → Decidable (s.InOrder a)
  | .refresh t _ => inferInstanceAs (Decidable ((s.tasks t).copies.length = n →
      ∀ t', t' ≠ t → ∀ i : Fin n, s.Stale t' i → ∃ t'', t'' ≠ t ∧ s.Pending t'' i))
  | .probe .. | .copy _ | .measure .. | .use _ => inferInstanceAs (Decidable True)

/-! ## What each action keeps -/

/-- A link that scored at the last refresh, or that a task holds as up, is up or has a task
pending for it. -/
structure Sound (last : List Nat) (s : System F n m) : Prop where
  installed : Inv n last s.scheduler
  up : ∀ i : Fin n, i.1 ∈ last → s.stateOf i ≠ .Up → ∃ t, s.Pending t i
  held : ∀ t i, s.Stale t i → ∃ t', s.Pending t' i

omit [Floating F] in
theorem sound_init (cfg : SchedulerConfig F) (links : Fin n → LiveLink F) :
    Sound [] (init cfg links : System F n m) where
  installed := inv_new
  up := fun _ h => nomatch h
  held := fun _ _ h => nomatch h.1

section Step

variable {last : List Nat} {s s' : System F n m} {t : Fin m}

omit [Floating F] in
theorem Pending.of_task {i : Nat} (h : s.Pending t i) (htask : s'.tasks t = s.tasks t) :
    s'.Pending t i := by
  rw [Pending, copyState, htask]
  exact h

omit [Floating F] in
theorem Stale.of_task {i : Fin n} (h : s.Stale t i) (htask : s.tasks t = s'.tasks t)
    (hstate : s'.stateOf i = s.stateOf i) : s'.Stale t i := by
  rw [Stale, copyState, ← htask, hstate]
  exact h

omit [Floating F] in
/-- A task that has just updated a link has everything to copy. -/
theorem pending_of_copies_nil (htask : s.tasks t = .copying []) (i : Nat) : s.Pending t i := by
  rw [Pending, copyState, htask]
  exact ⟨rfl, nofun⟩

theorem sound_probe (h : Sound last s) (t : Fin m) (i : Fin n) (outcome : Outcome F) :
    Sound last (s.step (.probe t i outcome)) := by
  simp only [step]
  cases htask : s.tasks t with
  | copying copies => exact h
  | idle =>
    have hself := Function.update_self t (Task.copying []) s.tasks
    exact ⟨h.installed, fun j _ _ => ⟨t, pending_of_copies_nil hself j⟩,
      fun _ j _ => ⟨t, pending_of_copies_nil hself j⟩⟩

omit [Floating F] in
/-- What a copy adds to the task's view. -/
theorem copyState_append {copies : List (Link F)} {link : Link F} {i : Nat} :
    (copies ++ [link])[i]?.map (·.state) =
      if i = copies.length then some link.state else copies[i]?.map (·.state) := by
  rcases Nat.lt_trichotomy i copies.length with hlt | rfl | hgt
  · rw [if_neg (by omega), List.getElem?_append_left hlt]
  · rw [if_pos rfl, List.getElem?_concat_length, Option.map_some]
  · rw [if_neg (by omega), List.getElem?_eq_none (by rw [List.length_append]; simp; omega),
      List.getElem?_eq_none (by omega)]

/-- One more copy made: the task sees one more link, as it is, and nothing else moves. -/
structure CopyStep (s s' : System F n m) (t : Fin m) : Prop where
  scheduler : s'.scheduler = s.scheduler
  state : ∀ i, s'.stateOf i = s.stateOf i
  other : ∀ t', t' ≠ t → s'.tasks t' = s.tasks t'
  busy : (s'.tasks t).isIdle = false
  view : ∀ i : Fin n, s'.copyState t i = some (s.stateOf i) ∨ s'.copyState t i = s.copyState t i

theorem step_copy_cases (s : System F n m) (t : Fin m) :
    s.step (.copy t) = s ∨ CopyStep s (s.step (.copy t)) t := by
  simp only [step]
  cases htask : s.tasks t with
  | idle => exact .inl rfl
  | copying copies =>
    dsimp only
    split
    case isFalse => exact .inl rfl
    case isTrue hmore =>
      refine .inr ⟨rfl, fun _ => rfl, fun t' ht => Function.update_of_ne ht _ _, ?_, ?_⟩
      · dsimp only
        rw [Function.update_self]
        rfl
      · intro i
        rw [copyState, copyState, htask]
        dsimp only
        rw [Function.update_self, Task.copies, copyState_append]
        by_cases hi : i.1 = copies.length
        · have hfin : (⟨copies.length, hmore⟩ : Fin n) = i := Fin.ext hi.symm
          rw [if_pos hi, hfin]
          exact .inl rfl
        · rw [if_neg hi]
          exact .inr rfl

omit [Floating F] in
/-- A copy of a link that is down does not end a task's pending for it. -/
theorem CopyStep.pending (hcopy : CopyStep s s' t) {t' : Fin m} {i : Fin n}
    (hdown : s.stateOf i ≠ .Up) (h : s.Pending t' i) : s'.Pending t' i := by
  by_cases ht : t' = t
  · subst ht
    refine ⟨hcopy.busy, ?_⟩
    rcases hcopy.view i with hview | hview
    · rw [hview]
      exact fun heq => hdown (Option.some.inj heq)
    · rw [hview]
      exact h.2
  · exact h.of_task (hcopy.other t' ht)

omit [Floating F] in
/-- A copy is not stale when it is made. -/
theorem CopyStep.stale (hcopy : CopyStep s s' t) {t' : Fin m} {i : Fin n} (h : s'.Stale t' i) :
    s.Stale t' i := by
  have hdown : s.stateOf i ≠ .Up := by
    rw [← hcopy.state]
    exact h.2
  by_cases ht : t' = t
  · subst ht
    have hup := h.1
    rcases hcopy.view i with hview | hview
    · rw [hview] at hup
      exact absurd (Option.some.inj hup) hdown
    · rw [hview] at hup
      exact ⟨hup, hdown⟩
  · exact h.of_task (hcopy.other t' ht) (hcopy.state i).symm

theorem sound_copy (h : Sound last s) (t : Fin m) : Sound last (s.step (.copy t)) := by
  rcases s.step_copy_cases t with heq | hcopy
  · rwa [heq]
  · refine ⟨?_, fun i hi hdown => ?_, fun t' i hstale => ?_⟩
    · rw [hcopy.scheduler]
      exact h.installed
    · rw [hcopy.state] at hdown
      exact (h.up i hi hdown).imp fun t' hp => hcopy.pending hdown hp
    · have hold := hcopy.stale hstale
      exact (h.held t' i hold).imp fun t'' hp => hcopy.pending hold.2 hp

/-- The copies are installed; those that are stale have a task pending, and a refresh in
order leaves one for every other stale copy. -/
theorem sound_refresh (hzero : ¬(ofRat 0 : F) < ofRat 0) (h : Sound last s)
    {peerPrimaryIndex : Option Nat} (horder : s.InOrder (.refresh t peerPrimaryIndex)) :
    ∃ last', Sound last' (s.step (.refresh t peerPrimaryIndex)) := by
  simp only [step]
  simp only [InOrder] at horder
  cases htask : s.tasks t with
  | idle => exact ⟨last, h⟩
  | copying copies =>
    dsimp only
    rw [htask] at horder
    split
    case isFalse => exact ⟨last, h⟩
    case isTrue hcomplete =>
      have hself := Function.update_self t Task.idle s.tasks
      have hother : ∀ t', t' ≠ t → Function.update s.tasks t Task.idle t' = s.tasks t' :=
        fun t' ht => Function.update_of_ne ht _ _
      refine ⟨scored copies, ⟨indices_refresh _ _ _ _, ?_, ?_⟩, ?_, ?_⟩
      · exact fun p hp => Scheduler.refreshFromScores_mem hp
      · intro i hi
        rw [← hcomplete]
        exact lt_of_mem_scored hi
      · intro i hi hdown
        obtain ⟨c, hc, hup, -⟩ := usable_of_mem_scored hzero hi
        have hmine : s.copyState t i = some .Up := by
          rw [copyState, htask, Task.copies, hc, Option.map_some, hup]
        obtain ⟨t', hp⟩ := h.held t i ⟨hmine, hdown⟩
        have ht : t' ≠ t := fun heq => hp.2 (heq ▸ hmine)
        exact ⟨t', hp.of_task (hother t' ht)⟩
      · intro t' i hstale
        have ht : t' ≠ t := by
          rintro rfl
          have hup := hstale.1
          rw [copyState] at hup
          dsimp only at hup
          rw [hself] at hup
          exact nomatch hup
        obtain ⟨t'', ht'', hp⟩ :=
          horder hcomplete t' ht i (hstale.of_task (hother t' ht) rfl)
        exact ⟨t'', hp.of_task (hother t'' ht'')⟩

theorem sound_measure (h : Sound last s) (i : Fin n) (adminDisabled : Bool)
    (rxThroughputMbps activeBandwidthMbps : Option F) :
    Sound last (s.step (.measure i adminDisabled rxThroughputMbps activeBandwidthMbps)) := by
  have hstate : ∀ j,
      (s.step (.measure i adminDisabled rxThroughputMbps activeBandwidthMbps)).stateOf j =
        s.stateOf j := by
    intro j
    simp only [step, stateOf]
    by_cases hij : j = i
    · subst hij
      rw [Function.update_self]
    · rw [Function.update_of_ne hij]
  refine ⟨h.installed, fun j hj hdown => ?_, fun t j hstale => ?_⟩
  · rw [hstate] at hdown
    exact h.up j hj hdown
  · exact h.held t j (hstale.of_task rfl (hstate j).symm)

theorem sound_use (h : Sound last s) (op : Op F n) : Sound last (s.step (.use op)) := by
  have hstep := inv_step h.installed op
  cases op with
  | refresh => exact h
  | updateCongestion | updateDelivery | noteQueueFull | noteSendFailed | selectFast | select =>
    exact ⟨hstep, h.up, h.held⟩

theorem sound_step (hzero : ¬(ofRat 0 : F) < ofRat 0) (h : Sound last s) (a : Action F n m)
    (horder : s.InOrder a) : ∃ last', Sound last' (s.step a) := by
  cases a with
  | probe t i outcome => exact ⟨last, sound_probe h t i outcome⟩
  | copy t => exact ⟨last, sound_copy h t⟩
  | refresh t peerPrimaryIndex => exact sound_refresh hzero h horder
  | measure i adminDisabled rxThroughputMbps activeBandwidthMbps =>
    exact ⟨last, sound_measure h i adminDisabled rxThroughputMbps activeBandwidthMbps⟩
  | use op => exact ⟨last, sound_use h op⟩

end Step

theorem sound_run (hzero : ¬(ofRat 0 : F) < ofRat 0) {s : System F n m} (h : ∃ last, Sound last s)
    {actions : List (Action F n m)} (horder : Mealy.Along act (fun _ => InOrder) [] s actions) :
    ∃ last, Sound last (Mealy.run act s actions) := by
  refine Mealy.invariant_along (I := fun _ s => ∃ last, Sound last s) ?_ h horder
  intro _ s a hsound hguard
  obtain ⟨last, hsound⟩ := hsound
  exact sound_step hzero hsound a hguard

/-- For every number of links and tasks and every interleaving in which the tasks refresh in
order: when no task is under way, every entry of the table and the primary are links that are
up. -/
theorem no_down_link_in_use (hzero : ¬(ofRat 0 : F) < ofRat 0) (cfg : SchedulerConfig F)
    (links : Fin n → LiveLink F) (actions : List (Action F n m))
    (horder : Mealy.Along act (fun _ => InOrder) [] (init cfg links) actions)
    (hquiet : (Mealy.run act (init cfg links) actions).Quiet) (i : Nat)
    (huse : InUse (Mealy.run act (init cfg links) actions).scheduler i) :
    ∃ h : i < n, (Mealy.run act (init cfg links) actions).stateOf ⟨i, h⟩ = .Up := by
  obtain ⟨last, hsound⟩ := sound_run hzero ⟨[], sound_init cfg links⟩ horder
  have hlast : i ∈ last := by
    rcases huse with hentry | hprimary
    · rwa [hsound.installed.table] at hentry
    · exact hsound.installed.primary i hprimary
  have hlt := hsound.installed.bound i hlast
  refine ⟨hlt, ?_⟩
  by_contra hdown
  obtain ⟨t, hbusy, -⟩ := hsound.up ⟨i, hlt⟩ hlast hdown
  rw [hquiet t] at hbusy
  exact nomatch hbusy

/-! ## Two runs -/

/-- A link that has just been bound, with a weight and nothing measured. -/
def bound : LiveLink ℚ where
  health := LinkMonitor.Link.bind (1 / 5) 0
  adminDisabled := false
  weight := 1
  bandwidthCapMbps := none
  rxThroughputMbps := none
  activeBandwidthMbps := none

/-- Two links, one hit to come up and five misses to go down. -/
def pair : System ℚ 2 2 :=
  init { (ConfigFile.serverWith { mtu := none, address6 := none }).scheduler with
    upThreshold := 1, downThreshold := 5 } fun _ => bound

/-- A task's steps, from the update to the refresh. -/
def whole (t i : Fin 2) (outcome : Outcome ℚ) : List (Action ℚ 2 2) :=
  [.probe t i outcome, .copy t, .copy t, .refresh t none]

/-- Both links come up, and link 0 goes down, one task after the other. -/
def oneByOne : List (Action ℚ 2 2) :=
  let zero : Fin 2 := ⟨0, Nat.two_pos⟩
  let one : Fin 2 := ⟨1, Nat.one_lt_two⟩
  whole zero zero (.reply 40 1 1) ++ whole zero one (.reply 40 2 2) ++
    whole one zero (.misses [3, 3, 3, 3, 3] 3)

/-- A reply on link 1 makes task 0 copy both links; before it refreshes, a sweep takes link 0
down and task 1 refreshes. -/
def overtaking : List (Action ℚ 2 2) :=
  let zero : Fin 2 := ⟨0, Nat.two_pos⟩
  let one : Fin 2 := ⟨1, Nat.one_lt_two⟩
  whole zero zero (.reply 40 1 1) ++ [.probe zero one (.reply 40 2 2), .copy zero, .copy zero] ++
    whole one zero (.misses [3, 3, 3, 3, 3] 3) ++ [.refresh zero none]

theorem link_one_in_use :
    InUse (Mealy.run act pair oneByOne).scheduler 1 ∧
      ∃ h, (Mealy.run act pair oneByOne).stateOf ⟨1, h⟩ = .Up := by
  have huse : InUse (Mealy.run act pair oneByOne).scheduler 1 := .inl (by decide +kernel)
  exact ⟨huse, no_down_link_in_use (by decide +kernel) _ _ oneByOne (by decide +kernel)
    (by decide +kernel) 1 huse⟩

/-- Nothing is under way and link 0 is down, but it is back in the table. -/
theorem down_link_in_use :
    (Mealy.run act pair overtaking).Quiet ∧
      (Mealy.run act pair overtaking).stateOf 0 = .Down ∧
      indices (Mealy.run act pair overtaking).scheduler.entries = [0, 1] := by
  decide +kernel

end System

end Mlvpn.Ports.RefreshTasks
