import Mlvpn.Ports.SendPath

/-!
# A link the operator has disabled

`admin_disabled` is to force a link out of scheduling, whatever its state.  Six places
choose a link for a frame.  The score, the placement of a parity share and the spill,
for a full queue as for a failed send, look at the flag.  Two do not: `select`'s
fallback, when nothing is up, ranks every link by its misses and its round trip, and
`send_redundant` copies to every link that is up, or has a remote if none is.

So a disabled link stays unused along every run that keeps clear of those two
(`Avoids`): whenever the fallback decides, some other link ranks before it, and
`send_redundant` finds it down while it finds another link up.

## Main results

* `spared_step`, `clear_step`: what a step under `Avoids` preserves.
* `disabled_link_unused`: no frame taken up later is ever queued to the link.
* `disabled_link_used`: either way of choosing it, without the condition.
-/

namespace Mlvpn.Ports.SendPath

open Verified Protocol Scheduling Extremum
open ConfigFile (SchedulerConfig)
open TxDispatch (Binds Bound Continues Dispatcher Env Job LinkView Shared State Trying)
open TxFate (Sane)
open Verified.Floating (ofRat)

variable {F : Type*} [Floating F] {n : Nat}

/-! ## The condition -/

/-- The fallback prefers `o` to `c`: fewer misses, then the shorter round trip, then
the smaller index. -/
def Outranks (o c : LinkScore F) : Prop :=
  Scheduler.leastBad o c = .lt ∨ Scheduler.leastBad o c = .eq ∧ o.linkIndex < c.linkIndex

instance (o c : LinkScore F) : Decidable (Outranks o c) := inferInstanceAs (Decidable (_ ∨ _))

/-- `send_redundant` would count the link as up. -/
def FoundUp (sh : Shared n) (i : Fin n) : Prop :=
  (sh.links i).remote ∧ (sh.links i).state = .Up

instance (sh : Shared n) (i : Fin n) : Decidable (FoundUp sh i) :=
  inferInstanceAs (Decidable (_ ∧ _))

/-- A step that stays clear of link `d`, with `k` for the link that redundant mode uses
in its place. -/
def Avoids (d k : Fin n) (t : Tunnel F n) : Action F n → Prop
  -- The operator's switch stays where it is, and no refresh comes from older copies.
  | .setLink i view => i = d → view.adminDisabled = true
  | .schedule (.refresh links _ _) => (links d).adminDisabled = true
  -- With nothing up, another link ranks before `d`.
  | .pickSlow _ => t.scheduler.primary = none → t.scheduler.entries.isEmpty = true →
      ∀ c ∈ t.scores.getD [], c.linkIndex = d.1 → ∃ o ∈ t.scores.getD [], Outranks o c
  -- `send_redundant` finds `d` not up, and `k` up.
  | .dispatcher _ =>
      (t.tx.dispatcher.reads = some d.1 → ¬FoundUp t.tx.shared d) ∧
        (t.tx.dispatcher.reads = some k.1 → FoundUp t.tx.shared k)
  | _ => True

/-! ## What the scheduler knows -/

variable {d : Fin n}

/-- A disabled link has no positive score. -/
theorem not_mem_scored (hzero : ¬(ofRat 0 : F) < ofRat 0) {links : Fin n → Link F}
    (h : (links d).adminDisabled = true) : d.1 ∉ scored (List.ofFn links) := by
  intro hmem
  obtain ⟨link, hlink, -, henabled⟩ := usable_of_mem_scored hzero hmem
  have hget : (List.ofFn links)[d.1]? = some (links d) := by simp
  rw [hget] at hlink
  cases hlink
  rw [h] at henabled
  exact nomatch henabled

instance : Std.TransCmp (Scheduler.leastBad : LinkScore F → LinkScore F → Ordering) :=
  inferInstanceAs (Std.TransCmp (compareLex
    (compareOn fun l : LinkScore F => (Scheduler.badness l).1)
    (compareOn fun l : LinkScore F => (Scheduler.badness l).2)))

/-- The copies are made in the order of the links. -/
def InOrder (t : Tunnel F n) : Prop :=
  ∀ scores, t.scores = some scores → scores.map (·.linkIndex) = List.range scores.length

omit [Floating F] in
theorem inOrder_init (cfg : SchedulerConfig F) (links : TxDispatch.Config n)
    (stats : Fin n → Link F) : InOrder (Tunnel.init cfg links stats) := by
  intro scores hscores
  exact nomatch (show none = some scores from hscores)

variable {t : Tunnel F n}

theorem inOrder_step (h : InOrder t) (a : Action F n) : InOrder (t.step a) := by
  cases a with
  | setLink | measure | setDelivery | overflow | schedule | frame | parity | worker => exact h
  | pickFast clock =>
    simp only [Tunnel.step]
    split
    · split
      · intro _ hnone
        cases hnone
      · intro scores hscores
        cases hscores
        rfl
    · exact h
  | observe =>
    simp only [Tunnel.step]
    split
    case h_1 scores hscores =>
      split
      · intro scores' hscores'
        cases hscores'
        simp [h scores hscores, List.range_succ]
      · exact h
    · exact h
  | pickSlow clock =>
    simp only [Tunnel.step]
    split
    · split
      · intro _ hnone
        cases hnone
      · exact h
    · exact h
  | dispatcher env =>
    simp only [Tunnel.step]
    split <;> exact h

theorem inOrder_run (h : InOrder t) (actions : List (Action F n)) : InOrder (t.run actions) := by
  induction actions generalizing t with
  | nil => exact h
  | cons a actions ih => exact ih (inOrder_step h a)

/-- The link is disabled, and was at the scheduler's last refresh. -/
structure Spared (d : Fin n) (t : Tunnel F n) : Prop where
  disabled : (t.tx.shared.links d).adminDisabled = true
  known : ∃ last, Inv n last t.scheduler ∧ d.1 ∉ last
  inOrder : InOrder t

section Spared

variable {d k : Fin n} {t : Tunnel F n} {a : Action F n}

/-- No pick answers with the link. -/
theorem Spared.not_picked (h : Spared d t) (hav : Avoids d k t a) {r : Scheduler F × Option Nat}
    (hpick : Tunnel.Picks t a r) : r.2 ≠ some d.1 := by
  obtain ⟨last, hinv, hlast⟩ := h.known
  intro hr
  cases hpick with
  | fast hd => exact hlast ((hinv.selectFast _ _).2.1 d.1 hr)
  | @slow clock job fec scores hd hscores =>
    rcases (selectScores hinv scores clock (frameLen job)).2 d.1 hr with hmem |
      ⟨hprimary, hentries, hmin⟩
    · exact hlast hmem
    · -- The fallback: the link would be the least bad, but another one ranks before it.
      obtain ⟨c, hc, hcd⟩ := Option.map_eq_some_iff.mp hmin
      have hav' := hav hprimary (by rw [hentries]; rfl)
      rw [hscores, Option.getD_some] at hav'
      obtain ⟨o, ho, hout⟩ := hav' c (mem_of_minBy hc) hcd
      have hsorted : (scores.map (·.linkIndex)).Pairwise (· < ·) := by
        rw [h.inOrder scores hscores]
        exact List.pairwise_lt_range
      have hswap : Scheduler.leastBad o c = (Scheduler.leastBad c o).swap :=
        Std.OrientedCmp.eq_swap
      rcases minBy_least (List.pairwise_map.mp hsorted) hc ho with hlt | ⟨heq, hle⟩
      · rw [hlt] at hswap
        rcases hout with hout | ⟨hout, -⟩ <;> exact nomatch hswap.symm.trans hout
      · rw [heq] at hswap
        rcases hout with hout | ⟨-, hless⟩
        · exact nomatch hswap.symm.trans hout
        · exact absurd hless (Nat.not_lt.mpr hle)

/-- A step under the condition: the link stays disabled, and the scheduler knows. -/
theorem spared_step (hzero : ¬(ofRat 0 : F) < ofRat 0) (h : Spared d t) (hav : Avoids d k t a) :
    Spared d (t.step a) where
  disabled := by
    rcases t.step_links a with hlinks | ⟨i, view, rfl, hlinks⟩
    · rw [hlinks]
      exact h.disabled
    · rw [hlinks]
      by_cases hi : d = i
      · subst hi
        rw [Function.update_self]
        exact hav rfl
      · rw [Function.update_of_ne hi]
        exact h.disabled
  known := by
    obtain ⟨last, hinv, hlast⟩ := h.known
    rcases (t.step_cases a).2 with hsame | ⟨op, rfl, hop⟩ | ⟨r, hpick, hr⟩
    · rw [hsame]
      exact ⟨last, hinv, hlast⟩
    · rw [hop]
      refine ⟨rescored last op, inv_step hinv op, ?_⟩
      cases op with
      | refresh links cfg peer => exact not_mem_scored hzero hav
      | _ => exact hlast
    · rw [hr]
      cases hpick with
      | fast hd => exact ⟨last, (hinv.selectFast _ _).1, hlast⟩
      | slow hd hscores => exact ⟨last, (selectScores hinv _ _ _).1, hlast⟩
  inOrder := inOrder_step h.inOrder a

end Spared

/-! ## What is on its way -/

/-- Nothing offered since `base` is queued to link `d` or on its way there, and
`send_redundant` has so far left `d` out and taken `k`. -/
structure Clear (base : Nat) (d k : Fin n) (s : State n) : Prop where
  queued : ∀ job ∈ (s.shared.queues d).jobs, job.id < base
  bound : ∀ job, Bound s (some job) d → job.id < base
  trying : ∀ job, Trying s job d → job.id < base
  uncopied : ¬Bound s none d
  collecting : ∀ plaintext next up any, s.dispatcher = .collecting plaintext next up any →
    d ∉ up ∧ (k.1 < next → k ∈ up)

section Clear

variable {base : Nat} {d k : Fin n} {t : Tunnel F n} {a : Action F n} {b : TxDispatch.Action n}

/-- Of the ways to choose a link only the spill is left, to a link tried before. -/
theorem Clear.of_binds (hclear : Clear base d k t.tx) (h : Spared d t) (hav : Avoids d k t a)
    (hproj : Tunnel.Projects t a b) {frame : Option (Job n)} (hbinds : Binds t.tx b frame d) :
    ∃ job, frame = some job ∧ job.id < base := by
  cases hbinds with
  | forced hd husable =>
    simp [Shared.usable, h.disabled] at husable
  | picked hd hb hpicked =>
    subst hb
    rcases hproj.of_dispatcher with ⟨r, hpick, rfl⟩ | ⟨-, hnot⟩
    · exact absurd hpicked (h.not_picked hav hpick)
    · exact absurd hd (hnot _ _)
  | @spilled job _ q htries hq => exact ⟨job, rfl, hclear.trying job htries.trying⟩
  | @copied plaintext next up any _ hd hnext hk =>
    obtain ⟨hskip, htaken⟩ := hclear.collecting plaintext next up any hd
    have hne : up ≠ [] := List.ne_nil_of_mem (htaken (k.2.trans_le hnext))
    rw [State.redundantTargets, if_neg hne] at hk
    exact absurd hk hskip

theorem Clear.collecting_step (hclear : Clear base d k t.tx) (hav : Avoids d k t a)
    (hproj : Tunnel.Projects t a b) {plaintext : Bytes} {next : Nat} {up any : List (Fin n)}
    (hd : (t.tx.step b).dispatcher = .collecting plaintext next up any) :
    d ∉ up ∧ (k.1 < next → k ∈ up) := by
  rcases TxDispatch.step_collecting hd with hsame | ⟨rfl, rfl⟩ |
    ⟨⟨env, rfl⟩, i, up', any', rfl, hbefore, rfl⟩
  · exact hclear.collecting plaintext next up any hsame
  · exact ⟨List.not_mem_nil, fun h => absurd h (Nat.not_lt_zero _)⟩
  · obtain ⟨hskip, htaken⟩ := hclear.collecting plaintext i up' any' hbefore
    have hguard : (i = d → ¬FoundUp t.tx.shared d) ∧ (i = k → FoundUp t.tx.shared k) := by
      have hreads : t.tx.dispatcher.reads = some i.1 := by rw [hbefore]; rfl
      cases hproj.eq_dispatcher fun _ _ hpicking => (nomatch hbefore.symm.trans hpicking)
      exact ⟨fun hi => hav.1 (hi ▸ hreads), fun hi => hav.2 (hi ▸ hreads)⟩
    constructor
    · split
      case isTrue hup =>
        intro hmem
        rcases List.mem_append.mp hmem with hmem | hmem
        · exact hskip hmem
        · cases List.mem_singleton.mp hmem
          exact hguard.1 rfl hup
      case isFalse => exact hskip
    · intro hlt
      rcases Nat.lt_succ_iff_lt_or_eq.mp hlt with hlt | heq
      · have hold := htaken hlt
        split
        · exact List.mem_append_left _ hold
        · exact hold
      · cases Fin.ext heq
        obtain ⟨hremote, hup⟩ := hguard.2 rfl
        rw [if_pos ⟨hremote, hup⟩]
        exact List.mem_append_right _ (List.mem_singleton_self _)

/-- A step under the condition sends nothing new the link's way. -/
theorem clear_step (hclear : Clear base d k t.tx) (h : Spared d t) (hav : Avoids d k t a) :
    Clear base d k (t.step a).tx := by
  rcases (t.step_cases a).1 with hsame | ⟨b, hproj, hstep⟩
  · rwa [hsame]
  rw [hstep]
  refine { queued := ?_, bound := ?_, trying := ?_, uncopied := ?_, collecting := ?_ }
  · intro job hjob
    rcases TxDispatch.step_jobs t.tx b d with hsuffix | ⟨job', hbound, hpush⟩
    · exact hclear.queued job (hsuffix.subset hjob)
    · rw [hpush] at hjob
      rcases List.mem_append.mp hjob with hjob | hjob
      · exact hclear.queued job hjob
      · cases List.mem_singleton.mp hjob
        exact hclear.bound job' hbound
  · intro job hbound
    rcases TxDispatch.step_bound hbound with ⟨frame', hbefore, hcont⟩ | hbinds
    · rcases hcont with rfl | ⟨job', job'', rfl, heq, -, hid⟩
      · exact absurd hbefore hclear.uncopied
      · cases heq
        rw [hid]
        exact hclear.bound job' hbefore
    · obtain ⟨job', heq, hid⟩ := hclear.of_binds h hav hproj hbinds
      cases heq
      exact hid
  · intro job htrying
    rcases TxDispatch.step_trying htrying with hbefore | hfit
    · exact hclear.trying job hbefore
    · simp [Shared.unfit, h.disabled] at hfit
  · intro hbound
    rcases TxDispatch.step_bound hbound with ⟨frame', hbefore, hcont⟩ | hbinds
    · rcases hcont with rfl | ⟨job', job'', -, heq, -⟩
      · exact hclear.uncopied hbefore
      · exact nomatch heq
    · obtain ⟨job', heq, -⟩ := hclear.of_binds h hav hproj hbinds
      exact nomatch heq
  · intro plaintext next up any hd
    exact hclear.collecting_step hav hproj hd

/-- Between two frames, every job of a reachable send path has been offered before. -/
theorem clear_of_sane {s : State n} (hsane : Sane s) (hcopies : s.dispatcher.copies = false) :
    Clear s.shared.offered d k s where
  queued := fun _ hjob => hsane.id_lt (TxFate.mem_holdings_of_queue hjob)
  bound := fun _ hbound => by
    obtain ⟨p, hmem⟩ := hbound.mem_holdings
    exact hsane.id_lt hmem
  trying := fun _ htrying => by
    obtain ⟨p, hmem⟩ := htrying.mem_holdings
    exact hsane.id_lt hmem
  uncopied := fun hbound => (nomatch hcopies.symm.trans hbound.copies)
  collecting := fun _ _ _ _ hd => by
    rw [hd] at hcopies
    exact nomatch hcopies

end Clear

/-! ## Runs -/

theorem spared_run (hzero : ¬(ofRat 0 : F) < ofRat 0) {k : Fin n}
    (h : Spared d t) {actions : List (Action F n)} (halong : t.Along (Avoids d k) actions) :
    Spared d (t.run actions) :=
  Mealy.invariant_along (I := fun _ => Spared d) (fun _ _ _ h hstep => spared_step hzero h hstep)
    h halong

theorem clear_run (hzero : ¬(ofRat 0 : F) < ofRat 0) {base : Nat} {k : Fin n}
    (hclear : Clear base d k t.tx) (h : Spared d t) {actions : List (Action F n)}
    {history : List (Action F n × Unit)}
    (halong : Mealy.Along (Mealy.silent Tunnel.step) (fun _ => Avoids d k) history t actions) :
    Clear base d k (t.run actions).tx :=
  (Mealy.invariant_along (I := fun _ t => Clear base d k t.tx ∧ Spared d t)
    (fun _ _ _ h hstep => ⟨clear_step h.1 h.2 hstep, spared_step hzero h.2 hstep⟩)
    ⟨hclear, h⟩ halong).1

theorem spared_refresh (hzero : ¬(ofRat 0 : F) < ofRat 0)
    (horder : InOrder t) (hdisabled : (t.tx.shared.links d).adminDisabled = true)
    {links : Fin n → Link F} (hseen : (links d).adminDisabled = true) (cfg : SchedulerConfig F)
    (peerPrimaryIndex : Option Nat) :
    Spared d (t.step (.schedule (.refresh links cfg peerPrimaryIndex))) where
  disabled := hdisabled
  known := ⟨_, inv_refresh t.scheduler links cfg peerPrimaryIndex, not_mem_scored hzero hseen⟩
  inOrder := horder

/-- In any mode and after any run, link `d` is disabled and the scheduler refreshed.
Then along every run under `Avoids`, no frame that `outbound_sender` takes up from some
point on, data or parity, is ever queued to `d`: every job in its queue is an older one.
The point is any at which `send_redundant` is not halfway through a frame. -/
theorem disabled_link_unused (hzero : ¬(ofRat 0 : F) < ofRat 0) (cfg cfg' : SchedulerConfig F)
    (config : TxDispatch.Config n) (stats : Fin n → Link F) (before : List (Action F n))
    (links : Fin n → Link F) (peerPrimaryIndex : Option Nat) (d k : Fin n) (t : Tunnel F n)
    (ht : t = (Tunnel.init cfg config stats).run
      (before ++ [.schedule (.refresh links cfg' peerPrimaryIndex)]))
    (hdisabled : (t.tx.shared.links d).adminDisabled = true)
    (hseen : (links d).adminDisabled = true) (between later : List (Action F n))
    (halong : t.Along (Avoids d k) (between ++ later))
    (hcopies : (t.run between).tx.dispatcher.copies = false) :
    ∀ job ∈ ((t.run (between ++ later)).tx.shared.queues d).jobs,
      job.id < (t.run between).tx.shared.offered := by
  have horder : InOrder ((Tunnel.init cfg config stats).run before) :=
    inOrder_run (inOrder_init cfg config stats) before
  have hspared : Spared d t := by
    rw [Tunnel.run, Mealy.run_append] at ht
    subst ht
    exact spared_refresh hzero horder hdisabled hseen cfg' peerPrimaryIndex
  have hsane : Sane (t.run between).tx := by
    rw [ht, Tunnel.run, Tunnel.run, ← Mealy.run_append]
    exact sane_tx cfg config stats _
  obtain ⟨halongBetween, halongLater⟩ := Mealy.along_append.mp halong
  have hclear : Clear (t.run between).tx.shared.offered d k ((t.run between).run later).tx :=
    clear_run hzero (clear_of_sane hsane hcopies) (spared_run hzero hspared halongBetween)
      halongLater
  rw [Tunnel.run, Mealy.run_append]
  exact hclear.queued

/-- A redundant frame while link 0 is disabled and down: link 1 carries it alone. -/
theorem disabled_link_unused_redundant :
    let cfg := { plainScheduler with redundantMode := true }
    let t := (twoLinks cfg).run (settle cfg fun i => ⟨if i = 0 then .Down else .Up, i = 0, true⟩)
    let frame := Action.frame [7] 0 :: List.replicate 6 (.dispatcher (pickEnv none))
    ((t.run frame).tx.shared.queues 1).jobs.map (·.plaintext) = [[7]] ∧
      ∀ job ∈ ((t.run ([] ++ frame)).tx.shared.queues 0).jobs,
        job.id < (t.run []).tx.shared.offered := by
  intro cfg t frame
  refine ⟨by decide +kernel, ?_⟩
  refine disabled_link_unused (by decide +kernel) cfg cfg _ _ _ _ none 0 1 t rfl rfl rfl [] frame
    ?_ rfl
  refine ⟨trivial, ⟨?_, ?_⟩, ⟨?_, ?_⟩, ⟨?_, ?_⟩, ⟨?_, ?_⟩, ⟨?_, ?_⟩, ⟨?_, ?_⟩, trivial⟩ <;>
    decide +kernel

/-- With nothing up the fallback takes link 0 because it has one miss less, and
redundant mode copies to it because it is up; link 0 is disabled, link 1 is not and has
a remote. -/
theorem disabled_link_used :
    let idle := List.replicate 4 (Action.dispatcher (pickEnv none) : Action ℚ 2)
    let cfg := { plainScheduler with redundantMode := true }
    let down := (twoLinks plainScheduler).run (settle plainScheduler fun i => ⟨.Down, i = 0, true⟩)
    let up := (twoLinks cfg).run (settle cfg fun i => ⟨.Up, i = 0, true⟩)
    let picked := down.run ([.frame [7] 0, .dispatcher (pickEnv none), .pickFast stopped, .observe,
      .observe, .pickSlow stopped] ++ idle)
    let copied := up.run (.frame [7] 0 :: (idle ++ idle))
    (picked.tx.shared.queues 0).jobs.map (fun job => (job.ptype, job.plaintext)) =
        [(.Data, [7])] ∧
      (copied.tx.shared.queues 0).jobs.map (fun job => (job.ptype, job.plaintext)) =
        [(.Data, [7])] := by
  decide +kernel

end Mlvpn.Ports.SendPath
