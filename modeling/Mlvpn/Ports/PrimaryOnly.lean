import Mlvpn.Ports.SendPath

/-!
# Primary mode

`primary_link_mode` and `follow_peer_primary` mean "use this link and nothing else":
`allow_spill` is off, and a frame that its link cannot take is to be dropped and counted.
`reserve` keeps to that when the primary's queue is full.  It does not when the queue is
closed, and neither does `reroute`: after a failed send, or with no remote, a worker
spills its frame to any other link that will have it.

So the frames of a period with one primary stay on it along every run in which each of
those spills comes to nothing (`Confined`): whenever one tries another link, that link's
queue is full or closed.

## Main results

* `guarded_step`: what a step under `Confined` preserves.
* `primary_only`: every data frame taken up in the period is queued to the primary alone,
  and is otherwise dropped and counted.
* `primary_leaks`: one failed send, without the condition.
-/

namespace Mlvpn.Ports.SendPath

open ConfigFile (SchedulerConfig SchedulerWellFormed validateScheduler
  validateScheduler_eq_ok)
open Verified Protocol Scheduling
open TxDispatch (Binds Bound Env Job LinkTx Shared State Tries)
open TxFate (Entry Move Place Sane holdings dispatcherEntries)

variable {F : Type*} [Floating F] {n : Nat}

/-! ## The mode -/

/-- What the two modes fix for the whole run. -/
structure OneLink (t : Tunnel F n) : Prop where
  redundantMode : t.cfg.redundantMode = false
  allowSpill : t.tx.shared.allowSpill = false
  copies : t.tx.dispatcher.copies = false

/-- A configuration the validator accepts never mixes them with redundant mode. -/
theorem oneLink_init {cfg : SchedulerConfig F} (hcfg : SchedulerWellFormed cfg)
    (hmode : cfg.primaryLinkMode = true ∨ cfg.followPeerPrimary = true)
    (config : TxDispatch.Config n) (stats : Fin n → Link F) :
    OneLink (Tunnel.init cfg config stats) where
  redundantMode := by
    cases hred : cfg.redundantMode with
    | false => exact hred
    | true =>
      rcases hmode with hprimary | hfollow
      · exact absurd ⟨hprimary, hred⟩ hcfg.primaryOrRedundant
      · exact absurd ⟨hfollow, hred⟩ hcfg.followOrRedundant
  allowSpill := by
    rcases hmode with hprimary | hfollow
    · simp [Tunnel.init, State.init, hprimary]
    · simp [Tunnel.init, State.init, hfollow]
  copies := rfl

variable {t : Tunnel F n}

theorem oneLink_step (h : OneLink t) (a : Action F n) : OneLink (t.step a) where
  redundantMode := by rw [t.step_cfg a, h.redundantMode]
  allowSpill := by
    rcases (t.step_cases a).1 with hsame | ⟨b, -, hstep⟩
    · rw [hsame, h.allowSpill]
    · rw [hstep, (TxDispatch.step_kept t.tx b).allowSpill, h.allowSpill]
  copies := by
    rcases (t.step_cases a).1 with hsame | ⟨b, hproj, hstep⟩
    · rw [hsame, h.copies]
    · rw [hstep]
      cases hcopies : (t.tx.step b).dispatcher.copies with
      | false => rfl
      | true =>
        rcases TxDispatch.step_copies hcopies with hbefore | ⟨plaintext, rfl⟩
        · exact nomatch h.copies.symm.trans hbefore
        · exact nomatch h.redundantMode.symm.trans hproj.of_sendRedundant

theorem oneLink_run (h : OneLink t) (actions : List (Action F n)) : OneLink (t.run actions) := by
  induction actions generalizing t with
  | nil => exact h
  | cons a actions ih => exact ih (oneLink_step h a)

/-! ## The condition -/

/-- A data frame taken up since `base` frames had been. -/
def Mine (base : Nat) (job : Job n) : Prop := job.ptype = .Data ∧ base ≤ job.id

instance (base : Nat) (job : Job n) : Decidable (Mine base job) :=
  inferInstanceAs (Decidable (_ ∧ _))

/-- The scheduler's primary is `p`, and up. -/
def Stays (p : Fin n) (t : Tunnel F n) (_ : Action F n) : Prop :=
  t.scheduler.primary = some p.1 ∧ (t.tx.shared.links p).state = .Up

instance (p : Fin n) (t : Tunnel F n) : DecidablePred (Stays p t) :=
  fun _ => inferInstanceAs (Decidable (_ ∧ _))

/-- `try_reserve` has no slot to give. -/
def NoRoom (q : LinkTx n) : Prop := q.closed = true ∨ q.free = 0

instance (q : LinkTx n) : Decidable (NoRoom q) := inferInstanceAs (Decidable (_ ∨ _))

/-- If this is an attempt for a frame of the period, the queue has no room. -/
def Fails (base : Nat) (sh : Shared n) : Option (Job n × Fin n) → Prop
  | some (job, k) => Mine base job → NoRoom (sh.queues k)
  | none => True

instance (base : Nat) (sh : Shared n) : DecidablePred (Fails base sh)
  | some _ => inferInstanceAs (Decidable (_ → _))
  | none => .isTrue trivial

/-- A step that does not take a frame of the period to another link than `p`. -/
def Confined (base : Nat) (p : Fin n) (t : Tunnel F n) : Action F n → Prop
  -- The dispatcher spills only from a queue whose worker is gone.
  | .dispatcher _ => (t.tx.shared.queues p).closed = true →
      Fails base t.tx.shared t.tx.dispatcher.attempt
  -- A worker spills after a failed send.
  | .worker i _ => Fails base t.tx.shared (t.tx.workers i).pc.attempt
  | _ => True

instance (base : Nat) (p : Fin n) (t : Tunnel F n) : DecidablePred (Confined base p t)
  | .dispatcher _ => inferInstanceAs (Decidable (_ → Fails base _ _))
  | .worker _ _ => inferInstanceAs (Decidable (Fails base _ _))
  | .setLink _ _ | .measure _ _ | .setDelivery _ _ | .overflow | .schedule _ | .frame _ _
  | .parity _ _ _ _ | .pickFast _ | .observe | .pickSlow _ => .isTrue trivial

variable {base : Nat}

theorem Fails.not_ok {sh : Shared n} {job : Job n} {k : Fin n} {q : LinkTx n}
    (h : Fails base sh (some (job, k))) (hmine : Mine base job) :
    (sh.queues k).tryReserve ≠ .ok q := by
  intro hq
  obtain ⟨hopen, hroom, -⟩ := LinkTx.tryReserve_eq_ok hq
  rcases h hmine with hclosed | hfree
  · exact Bool.false_ne_true (hopen.symm.trans hclosed)
  · rw [LinkTx.free] at hfree
    omega

/-! ## The invariant -/

/-- The frames of the period, wherever they are, have been to link `p` only and are bound
for no other; none was refused. -/
structure Guarded (base : Nat) (p : Fin n) (s : State n) : Prop where
  sane : Sane s
  forced : ∀ job forced fec, s.dispatcher = .offered job forced fec → Mine base job →
    forced = none
  bound : ∀ job k, Bound s (some job) k → Mine base job → k = p
  spilling : ∀ job fromLink pc fec, s.dispatcher = .spilling job fromLink pc fec →
    Mine base job → fromLink = p ∧ (s.shared.queues p).closed = true
  placed : ∀ e ∈ holdings s, Mine base e.2 → ∀ i ∈ e.2.placed, i = p
  refused : ∀ job ∈ s.shared.refused, ¬Mine base job

variable {s : State n}

/-- At the start of the period none of its frames exists. -/
theorem guarded_of_sane (hsane : Sane s) (p : Fin n) : Guarded s.shared.offered p s := by
  have hold : ∀ e ∈ holdings s, ¬Mine s.shared.offered e.2 := fun e he hmine =>
    absurd (hsane.id_lt he) (Nat.not_lt.mpr hmine.2)
  have hdispatcher : ∀ job, (.dispatcher, job) ∈ dispatcherEntries s.dispatcher →
      ¬Mine s.shared.offered job := fun job h => hold _ (TxFate.mem_holdings_of_dispatcher h)
  refine { sane := hsane, forced := ?_, bound := ?_, spilling := ?_, placed := ?_, refused := ?_ }
  · intro job forced fec hd hmine
    exact absurd hmine (hdispatcher job (by simp [hd, dispatcherEntries]))
  · intro job k hbound hmine
    obtain ⟨place, hmem⟩ := hbound.mem_holdings
    exact absurd hmine (hold _ hmem)
  · intro job fromLink pc fec hd hmine
    exact absurd hmine (hdispatcher job (by simp [hd, dispatcherEntries]))
  · intro e he hmine
    exact absurd hmine (hold e he)
  · intro job hjob
    exact hold (.refused, job)
      (TxFate.mem_holdings.2 (.inl (TxFate.mem_sharedEntries.2 (.inr (.inr (.inr ⟨rfl, hjob⟩))))))

/-- Only into a queue does a move change where a job has been. -/
theorem move_placed {x y : Entry n} (h : Move x y) :
    y.2.ptype = x.2.ptype ∧ y.2.id = x.2.id ∧
      ((∃ i, y.1 = .queue i) ∨ y.2.placed = x.2.placed) := by
  cases h with
  | accepted job i => exact ⟨rfl, rfl, .inl ⟨i, rfl⟩⟩
  | copied job i => exact ⟨rfl, rfl, .inl ⟨i, rfl⟩⟩
  | rerouted job i k hne => exact ⟨rfl, rfl, .inl ⟨k, rfl⟩⟩
  | _ => exact ⟨rfl, rfl, .inr rfl⟩

/-- A job whose place is the shared state's is there, and one that is being copied is
the dispatcher's. -/
theorem mem_of_mem_holdings {e : Entry n} (h : e ∈ holdings s) :
    (∀ i, e.1 = .queue i → e.2 ∈ (s.shared.queues i).jobs) ∧
      (e.1 = .refused → e.2 ∈ s.shared.refused) ∧
      (e.1 = .copying → s.dispatcher.copies = true) := by
  obtain ⟨place, job⟩ := e
  rcases TxFate.mem_holdings.1 h with hshared | hdispatcher | ⟨j, hworker⟩
  · rcases TxFate.mem_sharedEntries.1 hshared with ⟨j, rfl, hjob⟩ | ⟨j, rfl, -⟩ | ⟨rfl, -⟩ |
      ⟨rfl, hjob⟩
    · refine ⟨fun i hi => ?_, nofun, nofun⟩
      cases hi
      exact hjob
    · exact ⟨nofun, nofun, nofun⟩
    · exact ⟨nofun, nofun, nofun⟩
    · exact ⟨nofun, fun _ => hjob, nofun⟩
  · rcases TxDispatch.place_of_mem_dispatcherEntries hdispatcher with rfl | ⟨rfl, hcopies⟩
    · exact ⟨nofun, nofun, nofun⟩
    · exact ⟨nofun, nofun, fun _ => hcopies⟩
  · rcases TxFate.place_of_mem_workerEntries hworker with rfl | rfl
    · exact ⟨nofun, nofun, nofun⟩
    · exact ⟨nofun, nofun, nofun⟩

/-! ## One step -/

section Step

variable {base : Nat} {p : Fin n} {t : Tunnel F n} {a : Action F n} {b : TxDispatch.Action n}

/-- With a primary every pick answers with it. -/
theorem Stays.picked (h : Stays p t a) {r : Scheduler F × Option Nat}
    (hpick : Tunnel.Picks t a r) : r.2 = some p.1 := by
  have hpos : 0 < n := Nat.lt_of_le_of_lt (Nat.zero_le _) p.2
  cases hpick with
  | fast hd =>
    rw [Scheduler.selectFast, if_neg hpos.ne', h.1]
  | @slow clock job fec scores hd hscores hlen =>
    have hne : scores ≠ [] := by
      rintro rfl
      exact hpos.ne hlen
    rw [Scheduler.select, if_neg hne, h.1]

variable {job : Job n} {k : Fin n}

section

variable (hguard : Guarded base p t.tx)
include hguard

/-- An attempt for a frame of the period fails. -/
theorem Guarded.not_reserved (hconf : Confined base p t a) (hproj : Tunnel.Projects t a b)
    {q : LinkTx n} (htries : Tries t.tx b job k) (hmine : Mine base job) :
    (t.tx.shared.queues k).tryReserve ≠ .ok q := by
  cases htries with
  | @dispatcher _ fromLink cand cands fec env hd =>
    have hclosed := (hguard.spilling job fromLink _ fec hd hmine).2
    cases hproj.eq_dispatcher fun _ _ hpicking => (nomatch hd.symm.trans hpicking)
    have hfails := hconf hclosed
    rw [hd] at hfails
    exact hfails.not_ok hmine
  | @worker i _ cand cands rest env hpc =>
    cases hproj.of_worker
    have hfails : Fails base t.tx.shared (t.tx.workers i).pc.attempt := hconf
    rw [hpc] at hfails
    exact hfails.not_ok hmine

/-- So of the ways to choose a link only the pick is left. -/
theorem Guarded.of_binds (hstays : Stays p t a)
    (hconf : Confined base p t a) (hproj : Tunnel.Projects t a b)
    (hbinds : Binds t.tx b (some job) k) (hmine : Mine base job) : k = p := by
  cases hbinds with
  | forced hd husable => exact nomatch hguard.forced _ _ _ hd hmine
  | picked hd hb hpicked =>
    subst hb
    rcases hproj.of_dispatcher with ⟨r, hpick, rfl⟩ | ⟨-, hnot⟩
    · have hsame : some k.1 = some p.1 := hpicked.symm.trans (hstays.picked hpick)
      exact Fin.ext (Option.some.inj hsame)
    · exact absurd hd (hnot _ _)
  | spilled htries hq => exact absurd hq (hguard.not_reserved hconf hproj htries hmine)

theorem Guarded.forced_step (hproj : Tunnel.Projects t a b) {forced : Option Nat} {fec : Bool}
    (hd : (t.tx.step b).dispatcher = .offered job forced fec) (hmine : Mine base job) :
    forced = none := by
  rcases TxDispatch.step_offered hd with hsame | hnone | ⟨plaintext, now, rfl⟩
  · exact hguard.forced job forced fec hsame hmine
  · exact hnone
  · rw [hmine.1] at hproj
    exact hproj.of_dispatch

theorem Guarded.bound_step (hmode : OneLink t) (hstays : Stays p t a) (hconf : Confined base p t a)
    (hproj : Tunnel.Projects t a b) (hbound : Bound (t.tx.step b) (some job) k)
    (hmine : Mine base job) : k = p := by
  rcases TxDispatch.step_bound hbound with ⟨frame', hbefore, hcont⟩ | hbinds
  · rcases hcont with rfl | ⟨job', job'', rfl, heq, htype, hid⟩
    · exact nomatch hmode.copies.symm.trans hbefore.copies
    · cases heq
      exact hguard.bound job' k hbefore ⟨htype ▸ hmine.1, hid ▸ hmine.2⟩
  · exact hguard.of_binds hstays hconf hproj hbinds hmine

omit [Floating F] in
theorem Guarded.spilling_step (hmode : OneLink t) {fromLink : Fin n}
    {pc : TxDispatch.Spill n fromLink} {fec : Bool}
    (hd : (t.tx.step b).dispatcher = .spilling job fromLink pc fec) (hmine : Mine base job) :
    fromLink = p ∧ ((t.tx.step b).shared.queues p).closed = true := by
  rw [(TxDispatch.step_kept t.tx b).closed p]
  rcases TxDispatch.step_spilling hd with ⟨pc', hsame⟩ | ⟨hreserving, hspill | hclosed⟩
  · exact hguard.spilling job fromLink pc' fec hsame hmine
  · exact nomatch hmode.allowSpill.symm.trans hspill
  · have hbound : Bound t.tx (some job) fromLink :=
      .dispatcher (hreserving ▸ .reserving job fromLink fec)
    have hlink : fromLink = p := hguard.bound job fromLink hbound hmine
    exact ⟨hlink, hlink ▸ hclosed⟩

omit [Floating F] in
theorem Guarded.placed_step (hmode : OneLink t) {e : Entry n}
    (he : e ∈ holdings (t.tx.step b)) (hmine : Mine base e.2) : ∀ i ∈ e.2.placed, i = p := by
  by_cases hqueue : ∃ k, e.1 = .queue k
  · -- A job in a queue was there before, or was bound for it.
    obtain ⟨place, job⟩ := e
    obtain ⟨k, rfl⟩ := hqueue
    have hold : ∀ job ∈ (t.tx.shared.queues k).jobs, Mine base job → ∀ i ∈ job.placed, i = p :=
      fun job hjob => hguard.placed _ (TxFate.mem_holdings_of_queue hjob)
    have hjob := (mem_of_mem_holdings he).1 k rfl
    rcases TxDispatch.step_jobs t.tx b k with hsuffix | ⟨job', hbound, hpush⟩
    · exact hold job (hsuffix.subset hjob) hmine
    · rw [hpush] at hjob
      rcases List.mem_append.mp hjob with hjob | hjob
      · exact hold job hjob hmine
      · cases List.mem_singleton.mp hjob
        obtain ⟨place, hmem⟩ := hbound.mem_holdings
        intro i hi
        rcases List.mem_append.mp hi with hi | hi
        · exact hguard.placed _ hmem hmine i hi
        · rw [List.mem_singleton.mp hi]
          exact hguard.bound job' k hbound hmine
  · -- Elsewhere no move changes where a job has been, and a new one has been nowhere.
    obtain ⟨⟨fresh, hfresh, hstep⟩, -⟩ := TxFate.step_changes t.tx b hguard.sane.reserved
    rcases hstep.mem_cases he with hstayed | ⟨x, hx, hmove⟩ | hnew
    · exact hguard.placed e hstayed hmine
    · obtain ⟨htype, hid, hplace⟩ := move_placed hmove
      rcases hplace with hplace | hplace
      · exact absurd hplace hqueue
      · rw [hplace]
        exact hguard.placed x hx ⟨htype ▸ hmine.1, hid ▸ hmine.2⟩
    · cases hfresh with
      | none hoffered => exact absurd hnew (Multiset.notMem_zero e)
      | one place job hoffered hid hlocated =>
        cases Multiset.mem_singleton.1 hnew
        rcases TxDispatch.step_taken (a := b) hmode.copies with hsame | ⟨e', he', hid', hplaced⟩
        · omega
        · have hsane := TxFate.sane_step hguard.sane b
          have heq := hsane.unique he (TxFate.mem_holdings_of_dispatcher he')
            (hid.trans hid'.symm)
          intro i hi
          rw [heq, hplaced] at hi
          exact absurd hi List.not_mem_nil

theorem Guarded.refused_step (hmode : OneLink t) (hstays : Stays p t a)
    (hproj : Tunnel.Projects t a b) : ∀ job ∈ (t.tx.step b).shared.refused, ¬Mine base job := by
  rcases TxDispatch.step_refused (a := b) hmode.copies with hsame | ⟨job, fec, env, hd, rfl, hbad⟩
  · rw [hsame]
    exact hguard.refused
  · rcases hproj.of_dispatcher with ⟨r, hpick, rfl⟩ | ⟨-, hnot⟩
    · exact absurd p.2 (hbad p.1 (hstays.picked hpick))
    · exact absurd hd (hnot _ _)

/-- A step in the period, under the condition. -/
theorem guarded_step (hmode : OneLink t) (hstays : Stays p t a)
    (hconf : Confined base p t a) : Guarded base p (t.step a).tx := by
  rcases (t.step_cases a).1 with hsame | ⟨b, hproj, hstep⟩
  · rwa [hsame]
  · rw [hstep]
    exact
      { sane := TxFate.sane_step hguard.sane b
        forced := fun _ _ _ hd hmine => hguard.forced_step hproj hd hmine
        bound := fun _ _ hbound hmine =>
          hguard.bound_step hmode hstays hconf hproj hbound hmine
        spilling := fun _ _ _ _ hd hmine => hguard.spilling_step hmode hd hmine
        placed := fun _ he hmine => hguard.placed_step hmode he hmine
        refused := hguard.refused_step hmode hstays hproj }

end

end Step

/-! ## The period -/

theorem guarded_run {p : Fin n} (hguard : Guarded base p t.tx)
    (hmode : OneLink t) {actions : List (Action F n)} (hstays : t.Along (Stays p) actions)
    (hconf : t.Along (Confined base p) actions) : Guarded base p (t.run actions).tx :=
  (Mealy.invariant_along (I := fun _ t => Guarded base p t.tx ∧ OneLink t)
    (fun _ _ a h hstep => ⟨guarded_step h.1 h.2 hstep.1 hstep.2, oneLink_step h.2 a⟩)
    ⟨hguard, hmode⟩ (Mealy.along_and hstays hconf)).1

/-- What became of the data frames taken up since `base`. -/
structure OnlyPrimary (base : Nat) (p : Fin n) (s : State n) : Prop where
  /-- No frame disappears. -/
  kept : ∀ id, base ≤ id → id < s.shared.offered → ∃ e ∈ holdings s, e.2.id = id
  /-- No queue but the primary's has ever taken one. -/
  placed : ∀ e ∈ holdings s, Mine base e.2 → ∀ i ∈ e.2.placed, i = p
  /-- Each is still in hand, with the primary's queue or worker, sent there, or dropped. -/
  place : ∀ e ∈ holdings s, Mine base e.2 →
    e.1 ∈ [.dispatcher, .queue p, .worker p, .rerouting p, .sent p, .dropped]
  /-- Each drop is counted once; the rest of the total is the reader's overflow. -/
  counted : s.shared.droppedTotal = UInt64.ofNat (s.shared.overflowed + s.shared.dropped.length)

theorem Guarded.place {p : Fin n} (hguard : Guarded base p s)
    (hcopies : s.dispatcher.copies = false) {e : Entry n} (he : e ∈ holdings s)
    (hmine : Mine base e.2) :
    e.1 ∈ [.dispatcher, .queue p, .worker p, .rerouting p, .sent p, .dropped] := by
  have hplaced := hguard.placed e he hmine
  have hlocated := hguard.sane.located e he
  obtain ⟨place, job⟩ := e
  -- Where the job is, is the last link it was placed on.
  have hlast : ∀ i, job.placed = [i] ∨ (job.rerouted = true ∧ ∃ a ≠ i, job.placed = [a, i]) →
      i = p := by
    rintro i (hone | ⟨-, c, -, htwo⟩)
    · exact hplaced i (by simp [hone])
    · exact hplaced i (by simp [htwo])
  cases place with
  | dispatcher => simp
  | copying => exact nomatch hcopies.symm.trans ((mem_of_mem_holdings he).2.2 rfl)
  | queue i => simp [hlast i hlocated]
  | worker i => simp [hlast i hlocated]
  | rerouting i => simp [hlast i (.inl hlocated.1)]
  | sent i => simp [hlast i hlocated]
  | dropped => simp
  | refused => exact absurd hmine (hguard.refused job ((mem_of_mem_holdings he).2.1 rfl))

/-- In an accepted configuration with one of the two modes, after any run, a period begins
in which the scheduler's primary stays link `p`, up.  Then along every run under `Confined`,
with full queues, failed sends and missing remotes as they come, every data frame taken up
in the period is queued to `p` only, and is dropped and counted if `p` cannot take it or
send it. -/
theorem primary_only (cfg : SchedulerConfig F) (hcfg : validateScheduler cfg = .ok ())
    (hmode : cfg.primaryLinkMode = true ∨ cfg.followPeerPrimary = true)
    (config : TxDispatch.Config n) (stats : Fin n → Link F) (before : List (Action F n))
    (p : Fin n) (t : Tunnel F n) (ht : t = (Tunnel.init cfg config stats).run before)
    (actions : List (Action F n)) (hstays : t.Along (Stays p) actions)
    (hconf : t.Along (Confined t.tx.shared.offered p) actions) :
    OnlyPrimary t.tx.shared.offered p (t.run actions).tx := by
  have hwf : SchedulerWellFormed cfg := validateScheduler_eq_ok.mp hcfg
  have hone : OneLink t := ht ▸ oneLink_run (oneLink_init hwf hmode config stats) before
  have hsane : Sane t.tx := ht ▸ sane_tx cfg config stats before
  have hguard := guarded_run (guarded_of_sane hsane p) hone hstays hconf
  have hcopies := (oneLink_run hone actions).copies
  refine { kept := ?_, placed := hguard.placed, place := ?_, counted := hguard.sane.counted }
  · intro id _ hid
    have hmem : id ∈ (holdings (t.run actions).tx).map (·.2.id) := by
      rw [hguard.sane.ids]
      exact Multiset.mem_range.2 hid
    obtain ⟨e, he, hide⟩ := Multiset.mem_map.1 hmem
    exact ⟨e, he, hide⟩
  · intro e he hmine
    exact hguard.place hcopies he hmine

def primaryScheduler : SchedulerConfig ℚ := { plainScheduler with primaryLinkMode := true }

/-- A data frame goes to link 1, whose send fails; its worker then takes ten more steps. -/
def failedSend : List (Action ℚ 2) :=
  let env : Env := { pickEnv none with available := 1, result := .err false }
  [.frame [7] 0, .dispatcher env, .pickFast stopped] ++ List.replicate 4 (.dispatcher env) ++
    List.replicate 13 (.worker ⟨1, Nat.one_lt_two⟩ env)

/-- With link 0 down the frame is dropped and counted. -/
theorem primary_only_dropped :
    let t := (twoLinks primaryScheduler).run
      (settle primaryScheduler fun i => ⟨if i = 0 then .Down else .Up, false, true⟩)
    (t.run failedSend).tx.shared.dropped.map (fun job => (job.plaintext, job.placed)) =
        [([7], [1])] ∧
      (t.run failedSend).tx.shared.droppedTotal = 1 ∧
      OnlyPrimary t.tx.shared.offered 1 (t.run failedSend).tx := by
  intro t
  refine ⟨by decide +kernel, by decide +kernel, ?_⟩
  refine primary_only primaryScheduler (by decide +kernel) (.inl rfl) _ _ _ 1 t rfl failedSend ?_ ?_
  · decide +kernel
  · decide +kernel

/-- With link 0 up the frame travels on link 0, although link 1 is the primary, and up,
all the time. -/
theorem primary_leaks :
    let t := (twoLinks primaryScheduler).run (settle primaryScheduler fun _ => ⟨.Up, false, true⟩)
    validateScheduler primaryScheduler = .ok () ∧ t.Along (Stays 1) failedSend ∧
      Stays 1 (t.run failedSend) .observe ∧
      ((t.run failedSend).tx.shared.queues 0).jobs.map
          (fun job => (job.ptype, job.plaintext, job.placed)) = [(.Data, [7], [1, 0])] ∧
      (t.run failedSend).tx.shared.droppedTotal = 0 := by
  decide +kernel

end Mlvpn.Ports.SendPath
