import Mlvpn.Ports.TxDispatch
import Mlvpn.Verified.Ledger

/-!
# Every job has one fate

The jobs of a send path, wherever they are, form a ledger: each at one place,
in the dispatcher's hands, in a queue, in a worker's hands, sent, dropped or
refused.  A step of any task changes the ledger by one of the moves of `Move`,
and by nothing else (`step_changes`).  No move changes a job's identity, so no
job is lost or doubled, and every move keeps `Located`, so a job is placed on
at most two links, the second another than the first.

The hand-over of a job needs its reserved slot to be there still.  Permits are
therefore balanced in the same step lemma: what a queue has reserved is what the
tasks hold.

## Main results

* `step_changes` — what one step of the system does to jobs, permits and counters.
* `one_fate` — over every interleaving, each job is at exactly one place.
* `permits_returned` — and no queue loses a permit.
-/

namespace Mlvpn.Ports.TxFate

open Verified Protocol TxDispatch
open FecRecovery (Instant)

variable {n : Nat}

/-! ## The ledger -/

/-- Where a job can be. -/
inductive Place (n : Nat) where
  | dispatcher
  | copying
  | queue (i : Fin n)
  | worker (i : Fin n)
  | rerouting (i : Fin n)
  | sent (i : Fin n)
  | dropped
  | refused
deriving Repr, DecidableEq

abbrev Entry (n : Nat) := Place n × Job n

/-- Jobs at one place. -/
def entriesAt (p : Place n) (jobs : List (Job n)) : Multiset (Entry n) :=
  ((jobs.map (p, ·) : List (Entry n)) : Multiset (Entry n))

variable {s : State n} {sh : Shared n} {i : Fin n} {job : Job n} {e : Entry n} {q : LinkTx n}

@[simp] theorem entriesAt_nil (p : Place n) : entriesAt p [] = 0 := rfl

theorem entriesAt_cons (p : Place n) (job : Job n) (jobs : List (Job n)) :
    entriesAt p (job :: jobs) = entriesAt p jobs + {(p, job)} := by
  rw [entriesAt, List.map_cons, ← Multiset.cons_coe, ← Multiset.singleton_add, add_comm]
  rfl

theorem entriesAt_append (p : Place n) (jobs jobs' : List (Job n)) :
    entriesAt p (jobs ++ jobs') = entriesAt p jobs + entriesAt p jobs' := by
  simp [entriesAt]

theorem entriesAt_concat (p : Place n) (jobs : List (Job n)) (job : Job n) :
    entriesAt p (jobs ++ [job]) = entriesAt p jobs + {(p, job)} := by
  rw [entriesAt_append]
  rfl

def sentEntries (sent : List (Fin n × Job n)) : Multiset (Entry n) :=
  ((sent.map fun e => (Place.sent e.1, e.2) : List (Entry n)) : Multiset (Entry n))

theorem sentEntries_concat (sent : List (Fin n × Job n)) (i : Fin n) (job : Job n) :
    sentEntries (sent ++ [(i, job)]) = sentEntries sent + {(Place.sent i, job)} := by
  simp [sentEntries, ← Multiset.coe_add]

/-- The jobs in the shared state. -/
def sharedEntries (sh : Shared n) : Multiset (Entry n) :=
  (∑ i, entriesAt (.queue i) (sh.queues i).jobs) +
    (sentEntries sh.sent + entriesAt .dropped sh.dropped + entriesAt .refused sh.refused)

/-- The job in the dispatcher's hands. -/
def dispatcherEntries : Dispatcher n → Multiset (Entry n)
  | .idle => 0
  | .offered job _ _ => {(.dispatcher, job)}
  | .picking job _ => {(.dispatcher, job)}
  | .reserving job _ _ => {(.dispatcher, job)}
  | .spilling job _ _ _ => {(.dispatcher, job)}
  | .holding job _ _ => {(.dispatcher, job)}
  | .raised job _ => {(.dispatcher, job)}
  | .collecting _ _ _ _ => 0
  | .copying _ _ _ => 0
  | .copyRaised job _ _ => {(.copying, job)}

def restJobs : Rest n → List (Job n)
  | .results rest _ => rest.map Prod.fst
  | .perPacket _ rest => rest

/-- The jobs in worker `i`'s hands. -/
def workerEntries {i : Fin n} : WorkerPc n i → Multiset (Entry n)
  | .waiting => 0
  | .fetched batch => entriesAt (.worker i) batch
  | .batched batch => entriesAt (.worker i) batch
  | .running rest => entriesAt (.worker i) (restJobs rest)
  | .rerouting job _ rest => entriesAt (.worker i) (restJobs rest) + {(.rerouting i, job)}
  | .holding job _ rest => entriesAt (.worker i) (restJobs rest) + {(.rerouting i, job)}
  | .raised job _ rest => entriesAt (.worker i) (restJobs rest) + {(.rerouting i, job)}

/-- Every job of the system, with its place. -/
def holdings (s : State n) : Multiset (Entry n) :=
  sharedEntries s.shared + dispatcherEntries s.dispatcher + ∑ i, workerEntries (s.workers i).pc

/-- How a job gets from place to place. -/
inductive Move : Entry n → Entry n → Prop
  | join (job : Job n) (seq : UInt64) (now : Instant) (member : Option FecMember) :
      Move (.dispatcher, job) (.dispatcher, { job with seq, enqueued := now, member })
  | stamp (p : Place n) (job : Job n) (now : Instant) :
      Move (p, job) (p, { job with enqueued := now })
  | accepted (job : Job n) (i : Fin n) : Move (.dispatcher, job) (.queue i, job.place i)
  | refused (job : Job n) : Move (.dispatcher, job) (.refused, job)
  | unplaced (job : Job n) : Move (.dispatcher, job) (.dropped, job)
  | copied (job : Job n) (i : Fin n) : Move (.copying, job) (.queue i, job.place i)
  | uncopied (job : Job n) : Move (.copying, job) (.refused, job)
  | fetched (job : Job n) (i : Fin n) : Move (.queue i, job) (.worker i, job)
  | sent (job : Job n) (i : Fin n) (member : Option FecMember) :
      Move (.worker i, job) (.sent i, { job with member })
  | givenUp (job : Job n) (i : Fin n) (h : job.rerouted = true) :
      Move (.worker i, job) (.dropped, job)
  | retried (job : Job n) (i : Fin n) (h : job.rerouted = false) :
      Move (.worker i, job) (.rerouting i, { job with rerouted := true })
  | rerouted (job : Job n) (i k : Fin n) (h : k ≠ i) :
      Move (.rerouting i, job) (.queue k, job.place k)
  | lost (job : Job n) (i : Fin n) : Move (.rerouting i, job) (.dropped, job)

/-! ## Permits -/

/-- The slots of queue `k` the dispatcher has reserved. -/
def dispatcherHolds (k : Fin n) : Dispatcher n → Nat
  | .holding _ idx _ => if idx = k then 1 else 0
  | .raised _ idx => if idx = k then 1 else 0
  | _ => 0

/-- The slots of queue `k` worker `i` has reserved. -/
def workerHolds (k : Fin n) {i : Fin n} : WorkerPc n i → Nat
  | .holding _ idx _ => if idx.1 = k then 1 else 0
  | .raised _ idx _ => if idx.1 = k then 1 else 0
  | _ => 0

/-! ## What a step may do -/

/-- How often a job was placed, by where it is.  A copy of redundant mode counts
as rerouted from the start. -/
def Located : Place n → Job n → Prop
  | .dispatcher, job => job.placed = [] ∧ job.rerouted = false
  | .copying, job => job.placed = [] ∧ job.rerouted = true
  | .queue i, job => job.placed = [i] ∨ (job.rerouted = true ∧ ∃ a ≠ i, job.placed = [a, i])
  | .worker i, job => job.placed = [i] ∨ (job.rerouted = true ∧ ∃ a ≠ i, job.placed = [a, i])
  | .rerouting i, job => job.placed = [i] ∧ job.rerouted = true
  | .sent i, job => job.placed = [i] ∨ (job.rerouted = true ∧ ∃ a ≠ i, job.placed = [a, i])
  | .dropped, job => job.placed.length ≤ 2 ∧ job.placed.Nodup
  | .refused, job => job.placed = []

/-- The new entries of a step: none, or one job with the next identity. -/
inductive Fresh (sh sh' : Shared n) : Multiset (Entry n) → Prop
  | none (h : sh'.offered = sh.offered) : Fresh sh sh' 0
  | one (p : Place n) (job : Job n) (h : sh'.offered = sh.offered + 1)
      (hid : job.id = sh.offered) (hlocated : Located p job) : Fresh sh sh' {(p, job)}

/-- A task that held the jobs `held` and the slots `holds` now holds `held'` and
`holds'`, and the shared state changed to match. -/
structure Changes (sh sh' : Shared n) (held held' : Multiset (Entry n))
    (holds holds' : Fin n → Nat) : Prop where
  ledger : ∃ fresh, Fresh sh sh' fresh ∧
    Ledger.Step Move (sharedEntries sh + held) (sharedEntries sh' + held') fresh
  permits : ∀ k, (sh'.queues k).permits + holds k = (sh.queues k).permits + holds' k
  counted : sh'.droppedTotal + UInt64.ofNat (sh.overflowed + sh.dropped.length) =
    sh.droppedTotal + UInt64.ofNat (sh'.overflowed + sh'.dropped.length)

/-! ## Shared-state operations -/

theorem sharedEntries_setQueue (sh : Shared n) (i : Fin n) (q : LinkTx n) :
    sharedEntries (sh.setQueue i q) + entriesAt (.queue i) (sh.queues i).jobs =
      sharedEntries sh + entriesAt (.queue i) q.jobs := by
  have hsplit : ∀ queues : Fin n → LinkTx n, ∑ j, entriesAt (.queue j) (queues j).jobs =
      entriesAt (.queue i) (queues i).jobs +
        ∑ j ∈ Finset.univ.erase i, entriesAt (.queue j) (queues j).jobs := fun queues =>
    (Finset.add_sum_erase _ (fun j => entriesAt (.queue j) (queues j).jobs)
      (Finset.mem_univ i)).symm
  have hrest : ∑ j ∈ Finset.univ.erase i,
        entriesAt (.queue j) (Function.update sh.queues i q j).jobs =
      ∑ j ∈ Finset.univ.erase i, entriesAt (.queue j) (sh.queues j).jobs := by
    refine Finset.sum_congr rfl fun j hj => ?_
    rw [Function.update_of_ne (Finset.ne_of_mem_erase hj)]
  unfold sharedEntries Shared.setQueue
  simp only
  rw [hsplit, hsplit sh.queues, hrest, Function.update_self]
  abel

/-- Replacing a queue by one with the same jobs moves nothing. -/
theorem sharedEntries_setQueue_same (h : q.jobs = (sh.queues i).jobs) :
    sharedEntries (sh.setQueue i q) = sharedEntries sh := by
  have heq := sharedEntries_setQueue sh i q
  rw [h] at heq
  exact add_right_cancel heq

@[simp] theorem sharedEntries_count (sh : Shared n) (i : Fin n) (f : TxCounters → TxCounters) :
    sharedEntries (sh.count i f) = sharedEntries sh :=
  sharedEntries_setQueue_same rfl

@[simp] theorem sharedEntries_raise (sh : Shared n) (i : Fin n) :
    sharedEntries (sh.raise i) = sharedEntries sh :=
  sharedEntries_count sh i _

@[simp] theorem sharedEntries_dropJob (sh : Shared n) (job : Job n) :
    sharedEntries (sh.dropJob job) = sharedEntries sh + {(.dropped, job)} := by
  simp only [sharedEntries, Shared.dropJob, entriesAt_concat]
  abel

@[simp] theorem sharedEntries_refuse (sh : Shared n) (job : Job n) :
    sharedEntries (sh.refuse job) = sharedEntries sh + {(.refused, job)} := by
  simp only [sharedEntries, Shared.refuse, entriesAt_concat]
  abel

/-- A queue grows by one job. -/
theorem sharedEntries_push (h : q.jobs = (sh.queues i).jobs ++ [job]) :
    sharedEntries (sh.setQueue i q) = sharedEntries sh + {(.queue i, job)} := by
  have heq := sharedEntries_setQueue sh i q
  rw [h, entriesAt_concat, ← add_assoc, add_right_comm] at heq
  exact add_right_cancel heq

theorem sharedEntries_handOver (job : Job n) (h : 0 < (sh.queues i).permits) :
    sharedEntries (sh.handOver i job) = sharedEntries sh + {(.queue i, job.place i)} :=
  sharedEntries_push (by simp only [LinkTx.send, dif_pos h])

/-- The shared state moves no job and counts no drop. -/
structure Quiet (sh sh' : Shared n) : Prop where
  entries : sharedEntries sh' = sharedEntries sh
  offered : sh'.offered = sh.offered
  droppedTotal : sh'.droppedTotal = sh.droppedTotal
  overflowed : sh'.overflowed = sh.overflowed
  dropped : sh'.dropped = sh.dropped

theorem Quiet.refl (sh : Shared n) : Quiet sh sh := ⟨rfl, rfl, rfl, rfl, rfl⟩

theorem Quiet.trans {sh' sh'' : Shared n} (h : Quiet sh sh') (h' : Quiet sh' sh'') :
    Quiet sh sh'' where
  entries := h'.entries.trans h.entries
  offered := h'.offered.trans h.offered
  droppedTotal := h'.droppedTotal.trans h.droppedTotal
  overflowed := h'.overflowed.trans h.overflowed
  dropped := h'.dropped.trans h.dropped

theorem quiet_setQueue (h : q.jobs = (sh.queues i).jobs) : Quiet sh (sh.setQueue i q) :=
  ⟨sharedEntries_setQueue_same h, rfl, rfl, rfl, rfl⟩

theorem quiet_count (sh : Shared n) (i : Fin n) (f : TxCounters → TxCounters) :
    Quiet sh (sh.count i f) :=
  quiet_setQueue rfl

theorem Quiet.counted {sh' : Shared n} (h : Quiet sh sh') :
    sh'.droppedTotal + UInt64.ofNat (sh.overflowed + sh.dropped.length) =
      sh.droppedTotal + UInt64.ofNat (sh'.overflowed + sh'.dropped.length) := by
  rw [h.droppedTotal, h.overflowed, h.dropped]

/-! ## Queue operations and permits -/

theorem tryReserve_ok {q' : LinkTx n} (h : q.tryReserve = .ok q') :
    q'.jobs = q.jobs ∧ q'.permits = q.permits + 1 := by
  obtain ⟨-, -, rfl⟩ := LinkTx.tryReserve_eq_ok h
  exact ⟨rfl, rfl⟩

theorem trySend_ok {q' : LinkTx n} (h : q.trySend job = .ok q') :
    q'.jobs = q.jobs ++ [job] ∧ q'.permits = q.permits := by
  obtain ⟨-, rfl⟩ := LinkTx.trySend_eq_ok h
  exact ⟨rfl, rfl⟩

theorem permits_setQueue (sh : Shared n) (i k : Fin n) (q : LinkTx n) :
    ((sh.setQueue i q).queues k).permits =
      if i = k then q.permits else (sh.queues k).permits := by
  by_cases hik : i = k
  · subst hik
    simp [Shared.setQueue]
  · simp [Shared.setQueue, hik, Function.update_of_ne (Ne.symm hik)]

@[simp] theorem permits_count (sh : Shared n) (i k : Fin n) (f : TxCounters → TxCounters) :
    ((sh.count i f).queues k).permits = (sh.queues k).permits := by
  rw [Shared.count, permits_setQueue]
  split
  · rename_i hik
    rw [hik]
    rfl
  · rfl

theorem permits_reserve (h : (sh.queues i).tryReserve = .ok q) (k : Fin n) :
    ((sh.setQueue i q).queues k).permits = (sh.queues k).permits + if i = k then 1 else 0 := by
  rw [permits_setQueue]
  split
  · rename_i hik
    rw [(tryReserve_ok h).2, hik]
  · rw [add_zero]

theorem permits_handOver (job : Job n) (h : 0 < (sh.queues i).permits) (k : Fin n) :
    ((sh.handOver i job).queues k).permits + (if i = k then 1 else 0) =
      (sh.queues k).permits := by
  rw [Shared.handOver, permits_setQueue]
  split
  · rename_i hik
    subst hik
    simp only [LinkTx.send, dif_pos h]
    omega
  · rw [add_zero]

/-- The slot a step of `spill_reserve` took. -/
def spilledHolds (k : Fin n) {fromLink : Fin n} : Spilled n fromLink → Nat
  | .reserved cand => if cand.1 = k then 1 else 0
  | _ => 0

/-- `spill_reserve` moves no job; a step of it takes at most the slot it reports. -/
theorem spill_quiet {fromLink : Fin n} {sh' : Shared n} {pc : Spill n fromLink}
    {out : Spilled n fromLink} (h : pc.Moves sh sh' out) :
    Quiet sh sh' ∧ ∀ k, (sh'.queues k).permits = (sh.queues k).permits + spilledHolds k out := by
  cases h with
  | goesOn hfit => exact ⟨Quiet.refl sh, fun _ => rfl⟩
  | fails => exact ⟨Quiet.refl sh, fun _ => rfl⟩
  | takes hq =>
    refine ⟨(quiet_setQueue (tryReserve_ok hq).1).trans (quiet_count _ _ _), fun k => ?_⟩
    exact (permits_count _ _ _ _).trans (permits_reserve hq k)

/-! ## Ways a task changes the state -/

section

variable {sh sh' : Shared n} {held held' stay : Multiset (Entry n)} {holds holds' : Fin n → Nat}

/-- The task only thinks. -/
theorem Changes.of_quiet (hq : Quiet sh sh') (hheld : held' = held)
    (hpermits : ∀ k, (sh'.queues k).permits + holds k = (sh.queues k).permits + holds' k) :
    Changes sh sh' held held' holds holds' where
  ledger := ⟨0, Fresh.none hq.offered, by rw [hq.entries, hheld]; exact Ledger.Step.refl _⟩
  permits := hpermits
  counted := hq.counted

/-- The task rewrites or reclassifies a job in its hands. -/
theorem Changes.of_rewrite (hq : Quiet sh sh') {x y : Entry n} (hmove : Move x y)
    (hheld : held = stay + {x}) (hheld' : held' = stay + {y})
    (hpermits : ∀ k, (sh'.queues k).permits + holds k = (sh.queues k).permits + holds' k) :
    Changes sh sh' held held' holds holds' where
  ledger := by
    have hbefore : sharedEntries sh + held = sharedEntries sh + stay + {x} := by
      rw [hheld, add_assoc]
    have hafter : sharedEntries sh' + held' = sharedEntries sh + stay + {y} := by
      rw [hq.entries, hheld', add_assoc]
    exact ⟨0, Fresh.none hq.offered, Ledger.Step.move_one hmove hbefore hafter⟩
  permits := hpermits
  counted := hq.counted

/-- The task lets go of a job, which lands in the shared state. -/
theorem Changes.of_deposit {x y : Entry n} (hmove : Move x y)
    (hentries : sharedEntries sh' = sharedEntries sh + {y}) (hheld : held = held' + {x})
    (hoffered : sh'.offered = sh.offered)
    (hpermits : ∀ k, (sh'.queues k).permits + holds k = (sh.queues k).permits + holds' k)
    (hcounted : sh'.droppedTotal + UInt64.ofNat (sh.overflowed + sh.dropped.length) =
      sh.droppedTotal + UInt64.ofNat (sh'.overflowed + sh'.dropped.length)) :
    Changes sh sh' held held' holds holds' where
  ledger := by
    have hbefore : sharedEntries sh + held = sharedEntries sh + held' + {x} := by
      rw [hheld, add_assoc]
    have hafter : sharedEntries sh' + held' = sharedEntries sh + held' + {y} := by
      rw [hentries]
      abel
    exact ⟨0, Fresh.none hoffered, Ledger.Step.move_one hmove hbefore hafter⟩
  permits := hpermits
  counted := hcounted

/-- One more lost, one more counted. -/
theorem count_succ (total : UInt64) (lost : Nat) :
    total + 1 + UInt64.ofNat lost = total + UInt64.ofNat (lost + 1) := by
  rw [UInt64.ofNat_add, UInt64.add_assoc, UInt64.add_comm 1]
  rfl

/-- A drop is a deposit that is counted. -/
theorem Changes.of_drop (hq : Quiet sh sh') {p : Place n} (hmove : Move (p, job) (.dropped, job))
    (hheld : held = held' + {(p, job)})
    (hpermits : ∀ k, (sh'.queues k).permits + holds k = (sh.queues k).permits + holds' k) :
    Changes sh (sh'.dropJob job) held held' holds holds' := by
  refine Changes.of_deposit hmove ?_ hheld hq.offered hpermits ?_
  · rw [sharedEntries_dropJob, hq.entries]
  · simp only [Shared.dropJob, List.length_append, List.length_singleton, hq.droppedTotal,
      hq.overflowed, hq.dropped]
    exact count_succ _ _

end

/-! ## The dispatcher -/

/-- What the dispatcher's steps do to the state. -/
def DispatcherChanges (s s' : State n) : Prop :=
  s'.workers = s.workers ∧
    Changes s.shared s'.shared (dispatcherEntries s.dispatcher) (dispatcherEntries s'.dispatcher)
      (dispatcherHolds · s.dispatcher) (dispatcherHolds · s'.dispatcher)

section

variable {s : State n} {sh : Shared n} {d : Dispatcher n}

/-- The dispatcher goes on with the same job in hand. -/
theorem dispatcherChanges_quiet (hq : Quiet s.shared sh)
    (hheld : dispatcherEntries d = dispatcherEntries s.dispatcher)
    (hpermits : ∀ k, (sh.queues k).permits + dispatcherHolds k s.dispatcher =
      (s.shared.queues k).permits + dispatcherHolds k d) :
    DispatcherChanges s (s.setDispatcher sh d) :=
  ⟨rfl, Changes.of_quiet hq hheld hpermits⟩

/-- The dispatcher refuses its job. -/
theorem dispatcherChanges_refuse (hheld : dispatcherEntries s.dispatcher = {(.dispatcher, job)})
    (hpermits : ∀ k, dispatcherHolds k s.dispatcher = 0) :
    DispatcherChanges s (s.setDispatcher (s.shared.refuse job) .idle) := by
  refine ⟨rfl, Changes.of_deposit (Move.refused job) (sharedEntries_refuse _ _) ?_ rfl ?_ rfl⟩
  · rw [hheld]
    exact (zero_add _).symm
  · intro k
    rw [hpermits k]
    rfl

/-- The dispatcher drops its job and counts it. -/
theorem dispatcherChanges_drop (hq : Quiet s.shared sh)
    (hheld : dispatcherEntries s.dispatcher = {(.dispatcher, job)})
    (hpermits : ∀ k, (sh.queues k).permits + dispatcherHolds k s.dispatcher =
      (s.shared.queues k).permits) :
    DispatcherChanges s (s.setDispatcher (sh.dropJob job) .idle) := by
  refine ⟨rfl, Changes.of_drop hq (Move.unplaced job) ?_ hpermits⟩
  rw [hheld]
  exact (zero_add _).symm

end

theorem dispatcherStep_changes (s : State n) (env : Env)
    (hres : ∀ k, dispatcherHolds k s.dispatcher ≤ (s.shared.queues k).permits) :
    DispatcherChanges s (s.dispatcherStep env) := by
  obtain ⟨sh', d', hstep, hmove⟩ := s.dispatcherStep_eq env
  rw [hstep]
  obtain ⟨sh, d, ws⟩ := s
  cases hmove with
  | rests => exact dispatcherChanges_quiet (Quiet.refl sh) rfl fun _ => rfl
  | forced husable => exact dispatcherChanges_quiet (Quiet.refl sh) rfl fun _ => rfl
  | unforced => exact dispatcherChanges_quiet (Quiet.refl sh) rfl fun _ => rfl
  | picks idx hpicked => exact dispatcherChanges_quiet (Quiet.refl sh) rfl fun _ => rfl
  | refuses hpicked => exact dispatcherChanges_refuse rfl fun _ => rfl
  | reserves hq =>
    exact dispatcherChanges_quiet (quiet_setQueue (tryReserve_ok hq).1) rfl (permits_reserve hq)
  | overflows hspill hq =>
    exact dispatcherChanges_quiet (quiet_count _ _ _) rfl fun k => permits_count _ _ _ _
  | drops hq => exact dispatcherChanges_drop (quiet_count _ _ _) rfl fun k => permits_count _ _ _ _
  | closed hq => exact dispatcherChanges_quiet (Quiet.refl sh) rfl fun _ => rfl
  | spills hpc => exact dispatcherChanges_quiet (spill_quiet hpc).1 rfl (spill_quiet hpc).2
  | spilled hpc => exact dispatcherChanges_quiet (spill_quiet hpc).1 rfl (spill_quiet hpc).2
  | givesUp hpc => exact dispatcherChanges_drop (spill_quiet hpc).1 rfl (spill_quiet hpc).2
  | @joins job idx =>
    exact ⟨rfl, Changes.of_rewrite ⟨rfl, rfl, rfl, rfl, rfl⟩ (Move.join job _ _ _)
      (zero_add _).symm (zero_add _).symm fun _ => rfl⟩
  | @raises job idx =>
    refine ⟨rfl, Changes.of_rewrite (quiet_count _ _ _) (Move.stamp _ job env.now)
      (zero_add _).symm (zero_add _).symm fun k => ?_⟩
    exact congrArg (· + _) (permits_count _ _ _ _)
  | @handsOver job idx =>
    have hpos : 0 < (sh.queues idx).permits := by
      have := hres idx
      simp only [dispatcherHolds, if_pos] at this
      omega
    exact ⟨rfl, Changes.of_deposit (Move.accepted job idx) (sharedEntries_handOver job hpos)
      (zero_add _).symm rfl (permits_handOver job hpos) rfl⟩
  | collects idx => exact dispatcherChanges_quiet (Quiet.refl sh) rfl fun _ => rfl
  | untargeted => exact dispatcherChanges_quiet (Quiet.refl sh) rfl fun _ => rfl
  | numbers hnext => exact dispatcherChanges_quiet ⟨rfl, rfl, rfl, rfl, rfl⟩ rfl fun _ => rfl
  | copied => exact dispatcherChanges_quiet (Quiet.refl sh) rfl fun _ => rfl
  | @copies seq plaintext idx targets =>
    refine ⟨rfl, { ledger := ?_, permits := fun k => permits_count _ _ _ _, counted := rfl }⟩
    let job : Job n :=
      { TxJob.new .Data seq plaintext env.now with
        rerouted := true, id := sh.offered, placed := [] }
    refine ⟨_, Fresh.one .copying job rfl rfl ⟨rfl, rfl⟩, Ledger.Step.enter ?_⟩
    have hsame : sharedEntries ({ sh with offered := sh.offered + 1 }.raise idx) =
        sharedEntries sh := sharedEntries_raise _ _
    exact congrArg (· + {(.copying, job)}) (hsame.trans (add_zero _).symm)
  | @enqueues job idx targets q hq =>
    obtain ⟨hjobs, hsame⟩ := trySend_ok hq
    refine ⟨rfl, Changes.of_deposit (Move.copied job idx) (sharedEntries_push hjobs)
      (zero_add _).symm rfl (fun k => ?_) rfl⟩
    refine congrArg (· + 0) ((permits_setQueue sh idx k q).trans ?_)
    split
    · rename_i hik
      rw [hsame, hik]
    · rfl
  | @undoes job idx targets f hf =>
    exact ⟨rfl, Changes.of_deposit (Move.uncopied job)
      ((sharedEntries_count _ _ _).trans (sharedEntries_refuse _ _)) (zero_add _).symm rfl
      (fun k => permits_count _ _ _ _) rfl⟩

/-! ## The workers -/

/-- What worker `i`'s steps do to the state. -/
def WorkerChanges (s s' : State n) (i : Fin n) : Prop :=
  s'.dispatcher = s.dispatcher ∧ (∀ j, j ≠ i → s'.workers j = s.workers j) ∧
    Changes s.shared s'.shared (workerEntries (s.workers i).pc) (workerEntries (s'.workers i).pc)
      (workerHolds · (s.workers i).pc) (workerHolds · (s'.workers i).pc)

section

variable {s : State n} {sh : Shared n} {i : Fin n} {w : Worker n i} {pc : WorkerPc n i}

theorem workerChanges_setWorker
    (h : Changes s.shared sh (workerEntries (s.workers i).pc) (workerEntries w.pc)
      (workerHolds · (s.workers i).pc) (workerHolds · w.pc)) :
    WorkerChanges s (s.setWorker sh i w) i := by
  refine ⟨rfl, fun j hj => Function.update_of_ne hj _ _, ?_⟩
  rw [show (s.setWorker sh i w).workers i = w from Function.update_self _ _ _]
  exact h

theorem workerChanges_goOn
    (h : Changes s.shared sh (workerEntries (s.workers i).pc) (workerEntries pc)
      (workerHolds · (s.workers i).pc) (workerHolds · pc)) :
    WorkerChanges s (s.goOn sh i pc) i :=
  workerChanges_setWorker h

/-- A worker that does nothing. -/
theorem workerChanges_refl (s : State n) (i : Fin n) : WorkerChanges s s i :=
  ⟨rfl, fun _ _ => rfl, Changes.of_quiet (Quiet.refl _) rfl fun _ => rfl⟩

end

theorem sharedEntries_noteSent (sh : Shared n) (i : Fin n) (job : Job n) (carried : Bool) :
    ∃ member, sharedEntries (State.noteSent sh i job carried) =
      sharedEntries sh + {(.sent i, { job with member })} := by
  refine ⟨if carried then job.member.map FecMember.markCarried else job.member, ?_⟩
  cases carried <;>
    simp only [State.noteSent, sharedEntries, sentEntries_concat, if_true, if_false,
      Bool.false_eq_true] <;> abel

/-- The head of the batch was sent. -/
theorem workerChanges_sent {carried : Bool} {rest rest' : Rest n}
    (hpc : (s.workers i).pc = .running rest) (hjobs : restJobs rest = job :: restJobs rest') :
    WorkerChanges s (s.goOn (State.noteSent s.shared i job carried) i (.running rest')) i := by
  obtain ⟨member, hentries⟩ := sharedEntries_noteSent s.shared i job carried
  refine workerChanges_goOn (Changes.of_deposit (Move.sent job i member) hentries ?_ rfl ?_ rfl)
  · rw [hpc]
    simp only [workerEntries, hjobs, entriesAt_cons]
  · intro k
    rw [hpc]
    rfl

/-- The head of the batch failed: it is dropped, or the worker starts to reroute it. -/
theorem workerChanges_sendFailed {rest rest' : Rest n} (hpc : (s.workers i).pc = .running rest)
    (hjobs : restJobs rest = job :: restJobs rest') :
    WorkerChanges s (s.sendFailed i job rest') i := by
  have hheld : workerEntries (s.workers i).pc =
      entriesAt (.worker i) (restJobs rest') + {(.worker i, job)} := by
    rw [hpc]
    simp only [workerEntries, hjobs, entriesAt_cons]
  have hholds : ∀ k, workerHolds k (s.workers i).pc = 0 := fun k => by
    rw [hpc]
    rfl
  unfold State.sendFailed
  by_cases hre : job.rerouted = true
  · simp only [if_pos hre]
    refine workerChanges_goOn
      (Changes.of_drop (quiet_count _ _ _) (Move.givenUp job i hre) hheld fun k => ?_)
    rw [hholds k]
    exact permits_count _ _ _ _
  · simp only [if_neg hre]
    refine workerChanges_goOn (Changes.of_rewrite (quiet_count _ _ _)
      (Move.retried job i (Bool.eq_false_iff.2 hre)) hheld rfl fun k => ?_)
    rw [hholds k]
    exact permits_count _ _ _ _

/-- A finished batch leaves nothing in the worker's hands. -/
theorem workerChanges_finishBatch {rest : Rest n} (hpc : (s.workers i).pc = .running rest)
    (hjobs : restJobs rest = []) (active : Bool) : WorkerChanges s (s.finishBatch i active) i := by
  refine workerChanges_setWorker (Changes.of_quiet (quiet_count _ _ _) ?_ fun k => ?_)
  · rw [hpc]
    simp only [workerEntries, hjobs, entriesAt_nil]
  · rw [hpc]
    exact permits_count _ _ _ _

/-- A batch leaves the queue for the worker's hands. -/
theorem workerChanges_recvMany (hpc : (s.workers i).pc = .waiting) (k batchLen : Nat) :
    WorkerChanges s (s.setWorker (s.shared.setQueue i ((s.shared.queues i).recvMany k).2) i
      { s.workers i with batchLen, pc := .fetched ((s.shared.queues i).recvMany k).1 }) i := by
  have hsplit : entriesAt (.queue i) (s.shared.queues i).jobs =
      entriesAt (.queue i) ((s.shared.queues i).jobs.drop k) +
        entriesAt (.queue i) ((s.shared.queues i).jobs.take k) := by
    rw [add_comm, ← entriesAt_append, List.take_append_drop]
  have hentries : sharedEntries s.shared =
      sharedEntries (s.shared.setQueue i ((s.shared.queues i).recvMany k).2) +
        entriesAt (.queue i) ((s.shared.queues i).jobs.take k) := by
    have heq := sharedEntries_setQueue s.shared i ((s.shared.queues i).recvMany k).2
    rw [hsplit, ← add_assoc, add_right_comm] at heq
    exact (add_right_cancel heq).symm
  have hmoves : Multiset.Rel Move (entriesAt (.queue i) ((s.shared.queues i).jobs.take k))
      (entriesAt (.worker i) ((s.shared.queues i).jobs.take k)) := by
    unfold entriesAt
    rw [← Multiset.map_coe, ← Multiset.map_coe, Multiset.rel_map]
    exact Multiset.rel_refl_of_refl_on fun job _ => Move.fetched job i
  refine workerChanges_setWorker { ledger := ?_, permits := fun k' => ?_, counted := rfl }
  · refine ⟨0, Fresh.none rfl, Ledger.Step.moves hmoves ?_ rfl⟩
    rw [hpc]
    exact (add_zero _).trans hentries
  · rw [hpc]
    refine congrArg (· + 0) ((permits_setQueue _ i k' _).trans ?_)
    split
    · rename_i hik
      rw [← hik]
      rfl
    · rfl

/-- The steps of worker `i`. -/
inductive WorkerMoves (s : State n) (i : Fin n) (env : Env) : State n → Prop where
  | rests (hpc : (s.workers i).pc = .waiting ∨ ∃ batch, (s.workers i).pc = .batched batch) :
      WorkerMoves s i env s
  | fetches {m : Nat} (hpc : (s.workers i).pc = .waiting) (hm : m ≤ TX_WORKER_BATCH)
      (hsome : ((s.shared.queues i).recvMany m).1 ≠ []) :
      WorkerMoves s i env (s.setWorker (s.shared.setQueue i ((s.shared.queues i).recvMany m).2) i
        { s.workers i with batchLen := ((s.shared.queues i).recvMany m).1.length
                           pc := .fetched ((s.shared.queues i).recvMany m).1 })
  | batches {batch} (hpc : (s.workers i).pc = .fetched batch) :
      WorkerMoves s i env (s.goOn s.shared i (.batched batch))
  | starts {batch} (hpc : (s.workers i).pc = .fetched batch) :
      WorkerMoves s i env
        (s.goOn s.shared i (.running (.perPacket (s.shared.links i).remote batch)))
  | answers {batch} (hpc : (s.workers i).pc = .batched batch)
      (hlen : env.results.length = batch.length) :
      WorkerMoves s i env (s.goOn s.shared i (.running (.results (batch.zip env.results) false)))
  | finishes {rest} (active : Bool) (hpc : (s.workers i).pc = .running rest)
      (hjobs : restJobs rest = []) : WorkerMoves s i env (s.finishBatch i active)
  | sends {job carried rest rest'} (hpc : (s.workers i).pc = .running rest)
      (hjobs : restJobs rest = job :: restJobs rest') :
      WorkerMoves s i env (s.goOn (State.noteSent s.shared i job carried) i (.running rest'))
  | fails {job rest rest'} (hpc : (s.workers i).pc = .running rest)
      (hjobs : restJobs rest = job :: restJobs rest') :
      WorkerMoves s i env (s.sendFailed i job rest')
  | spills {job pc pc' rest sh} (hpc : (s.workers i).pc = .rerouting job pc rest)
      (hmove : pc.Moves s.shared sh (.more pc')) :
      WorkerMoves s i env (s.goOn sh i (.rerouting job pc' rest))
  | spilled {job pc rest sh} {cand : Other n i} (hpc : (s.workers i).pc = .rerouting job pc rest)
      (hmove : pc.Moves s.shared sh (.reserved cand)) :
      WorkerMoves s i env (s.goOn sh i (.holding job cand rest))
  | givesUp {job pc rest sh} (hpc : (s.workers i).pc = .rerouting job pc rest)
      (hmove : pc.Moves s.shared sh .failed) :
      WorkerMoves s i env (s.goOn (sh.dropJob job) i (.running rest))
  | raises {job rest} {idx : Other n i} (hpc : (s.workers i).pc = .holding job idx rest) :
      WorkerMoves s i env
        (s.goOn (s.shared.raise idx) i (.raised { job with enqueued := env.now } idx rest))
  | handsOver {job rest} {idx : Other n i} (hpc : (s.workers i).pc = .raised job idx rest) :
      WorkerMoves s i env (s.goOn (s.shared.handOver idx job) i (.running rest))

theorem workerStep_moves (s : State n) (i : Fin n) (env : Env) :
    WorkerMoves s i env (s.workerStep i env) := by
  simp only [State.workerStep]
  cases hpc : (s.workers i).pc with
  | waiting =>
    simp only
    split
    · exact .rests (.inl hpc)
    case isFalse hsome => exact .fetches hpc (Nat.min_le_right _ _) hsome
  | fetched batch =>
    simp only
    split
    · exact .batches hpc
    · exact .starts hpc
  | batched batch =>
    simp only
    split
    case isTrue hlen => exact .answers hpc hlen
    · exact .rests (.inr ⟨batch, hpc⟩)
  | running rest =>
    rcases rest with ⟨_ | ⟨⟨job, _ | _⟩, rest⟩, unsupported⟩ | ⟨_ | _, _ | ⟨job, rest⟩⟩
    · exact .finishes _ hpc rfl
    · exact .sends hpc rfl
    · exact .fails hpc rfl
    · exact .finishes _ hpc rfl
    · exact .fails hpc rfl
    · exact .finishes _ hpc rfl
    · simp only
      split
      · exact .sends hpc rfl
      · exact .fails hpc rfl
  | rerouting job pc rest =>
    have hmove := pc.step_moves s.shared
    simp only
    rcases hstep : pc.step s.shared with ⟨sh, out⟩
    rw [hstep] at hmove
    cases out with
    | more pc' => exact .spills hpc hmove
    | reserved cand => exact .spilled hpc hmove
    | failed => exact .givesUp hpc hmove
  | holding job idx rest => exact .raises hpc
  | raised job idx rest => exact .handsOver hpc

theorem workerStep_changes (s : State n) (i : Fin n) (env : Env)
    (hres : ∀ k, workerHolds k (s.workers i).pc ≤ (s.shared.queues k).permits) :
    WorkerChanges s (s.workerStep i env) i := by
  -- A step that keeps the worker's jobs where they are.
  have hquiet : ∀ {sh pc}, Quiet s.shared sh → workerEntries pc = workerEntries (s.workers i).pc →
      (∀ k, (sh.queues k).permits + workerHolds k (s.workers i).pc =
        (s.shared.queues k).permits + workerHolds k pc) → WorkerChanges s (s.goOn sh i pc) i :=
    fun hq hheld hpermits => workerChanges_goOn (Changes.of_quiet hq hheld hpermits)
  have hmove := workerStep_moves s i env
  generalize s.workerStep i env = s' at hmove ⊢
  cases hmove with
  | rests hpc => exact workerChanges_refl s i
  | fetches hpc hm hsome => exact workerChanges_recvMany hpc _ _
  | batches hpc => exact hquiet (Quiet.refl _) (by rw [hpc]; rfl) fun _ => by rw [hpc]; rfl
  | starts hpc => exact hquiet (Quiet.refl _) (by rw [hpc]; rfl) fun _ => by rw [hpc]; rfl
  | answers hpc hlen =>
    refine hquiet (Quiet.refl _) ?_ fun _ => by rw [hpc]; rfl
    rw [hpc]
    simp only [workerEntries, restJobs]
    rw [List.map_fst_zip (le_of_eq hlen.symm)]
  | finishes active hpc hjobs => exact workerChanges_finishBatch hpc hjobs active
  | sends hpc hjobs => exact workerChanges_sent hpc hjobs
  | fails hpc hjobs => exact workerChanges_sendFailed hpc hjobs
  | spills hpc hmove =>
    exact hquiet (spill_quiet hmove).1 (by rw [hpc]; rfl)
      fun k => by rw [hpc]; exact (spill_quiet hmove).2 k
  | spilled hpc hmove =>
    exact hquiet (spill_quiet hmove).1 (by rw [hpc]; rfl)
      fun k => by rw [hpc]; exact (spill_quiet hmove).2 k
  | @givesUp job pc rest sh hpc hmove =>
    exact workerChanges_goOn (Changes.of_drop (spill_quiet hmove).1 (Move.lost job i)
      (by rw [hpc]; rfl) fun k => by rw [hpc]; exact (spill_quiet hmove).2 k)
  | @raises job rest idx hpc =>
    refine workerChanges_goOn (Changes.of_rewrite (quiet_count _ _ _)
      (Move.stamp _ job env.now) (by rw [hpc]; rfl) rfl fun k => ?_)
    rw [hpc]
    exact congrArg (· + _) (permits_count _ _ _ _)
  | @handsOver job rest idx hpc =>
    have hpos : 0 < (s.shared.queues idx).permits := by
      have hidx := hres idx
      rw [hpc] at hidx
      simp only [workerHolds, if_pos] at hidx
      omega
    refine workerChanges_goOn (Changes.of_deposit (Move.rerouted job i idx idx.2)
      (sharedEntries_handOver job hpos) (by rw [hpc]; rfl) rfl (fun k => ?_) rfl)
    rw [hpc]
    exact permits_handOver job hpos k

/-! ## The system -/

/-- What the queues have reserved is what the tasks hold. -/
def Reserved (s : State n) : Prop :=
  ∀ k, (s.shared.queues k).permits =
    dispatcherHolds k s.dispatcher + ∑ i, workerHolds k (s.workers i).pc

/-- Everything a step of the system does to jobs, permits and drop counts. -/
structure SystemChanges (s s' : State n) : Prop where
  ledger : ∃ fresh, Fresh s.shared s'.shared fresh ∧
    Ledger.Step Move (holdings s) (holdings s') fresh
  reserved : Reserved s'
  counted : s'.shared.droppedTotal + UInt64.ofNat (s.shared.overflowed + s.shared.dropped.length) =
    s.shared.droppedTotal + UInt64.ofNat (s'.shared.overflowed + s'.shared.dropped.length)

theorem DispatcherChanges.system {s' : State n} (h : DispatcherChanges s s') (hres : Reserved s) :
    SystemChanges s s' := by
  obtain ⟨hworkers, hchanges⟩ := h
  refine { ledger := ?_, reserved := fun k => ?_, counted := hchanges.counted }
  · obtain ⟨fresh, hfresh, hstep⟩ := hchanges.ledger
    refine ⟨fresh, hfresh, ?_⟩
    unfold holdings
    rw [hworkers]
    exact hstep.frame _
  · have hk := hchanges.permits k
    have hold := hres k
    rw [hworkers]
    omega

theorem WorkerChanges.system {s' : State n} (h : WorkerChanges s s' i) (hres : Reserved s) :
    SystemChanges s s' := by
  obtain ⟨hdispatcher, hothers, hchanges⟩ := h
  have hrest : ∑ j ∈ Finset.univ.erase i, workerEntries (s'.workers j).pc =
      ∑ j ∈ Finset.univ.erase i, workerEntries (s.workers j).pc :=
    Finset.sum_congr rfl fun j hj => by rw [hothers j (Finset.ne_of_mem_erase hj)]
  refine { ledger := ?_, reserved := fun k => ?_, counted := hchanges.counted }
  · obtain ⟨fresh, hfresh, hstep⟩ := hchanges.ledger
    refine ⟨fresh, hfresh, ?_⟩
    have hsplit : ∀ s : State n, holdings s =
        sharedEntries s.shared + workerEntries (s.workers i).pc +
          (dispatcherEntries s.dispatcher +
            ∑ j ∈ Finset.univ.erase i, workerEntries (s.workers j).pc) := fun s => by
      unfold holdings
      rw [← Finset.add_sum_erase _ (fun j => workerEntries (s.workers j).pc) (Finset.mem_univ i)]
      abel
    rw [hsplit s, hsplit s', hdispatcher, hrest]
    exact hstep.frame _
  · have hk := hchanges.permits k
    have hold := hres k
    have hholds : ∑ j ∈ Finset.univ.erase i, workerHolds k (s'.workers j).pc =
        ∑ j ∈ Finset.univ.erase i, workerHolds k (s.workers j).pc :=
      Finset.sum_congr rfl fun j hj => by rw [hothers j (Finset.ne_of_mem_erase hj)]
    rw [← Finset.add_sum_erase _ (fun j => workerHolds k (s.workers j).pc)
      (Finset.mem_univ i)] at hold
    rw [← Finset.add_sum_erase _ (fun j => workerHolds k (s'.workers j).pc) (Finset.mem_univ i),
      hdispatcher, hholds]
    omega

/-- A step that touches no job and no task. -/
theorem systemChanges_quiet (hres : Reserved s) (hq : Quiet s.shared sh)
    (hpermits : ∀ k, (sh.queues k).permits = (s.shared.queues k).permits) :
    SystemChanges s { s with shared := sh } :=
  DispatcherChanges.system
    ⟨rfl, Changes.of_quiet hq rfl fun k => congrArg (· + _) (hpermits k)⟩ hres

/-- The dispatcher takes up a frame. -/
theorem systemChanges_offer (hres : Reserved s) (hidle : s.dispatcher = .idle) (sh : Shared n)
    (hsh : Quiet s.shared sh) (hqueues : sh.queues = s.shared.queues) {job : TxJob}
    (hjob : job.rerouted = false) (forced : Option Nat) (fec : Bool) :
    SystemChanges s (s.offer sh job forced fec) := by
  refine DispatcherChanges.system
    ⟨rfl, { ledger := ?_, permits := fun k => ?_, counted := ?_ }⟩ hres
  · refine ⟨_, Fresh.one .dispatcher { job with id := sh.offered, placed := [] }
      (congrArg (· + 1) hsh.offered) hsh.offered ⟨rfl, hjob⟩, Ledger.Step.enter ?_⟩
    rw [hidle]
    change sharedEntries sh + _ = sharedEntries s.shared + 0 + _
    rw [hsh.entries, add_zero]
    rfl
  · rw [hidle]
    exact congrArg (fun queues : Fin n → LinkTx n => (queues k).permits + 0) hqueues
  · exact hsh.counted

/-- One step of the system, whichever task takes it. -/
theorem step_changes (s : State n) (a : Action n) (hres : Reserved s) :
    SystemChanges s (s.step a) := by
  have hstay : SystemChanges s s := systemChanges_quiet hres (Quiet.refl _) fun _ => rfl
  cases a with
  | setLink i view => exact systemChanges_quiet hres ⟨rfl, rfl, rfl, rfl, rfl⟩ fun _ => rfl
  | setDelivery i ppm =>
    exact systemChanges_quiet hres (quiet_count _ _ _) fun k => permits_count _ _ _ _
  | overflow =>
    refine { ledger := ⟨0, Fresh.none rfl, Ledger.Step.refl _⟩, reserved := hres, counted := ?_ }
    simp only [State.step]
    rw [Nat.add_right_comm, count_succ]
  | dispatch ptype plaintext forced now =>
    simp only [State.step]
    split
    · rename_i hidle
      exact systemChanges_offer hres hidle { s.shared with sendSeq := s.shared.sendSeq + 1 }
        ⟨rfl, rfl, rfl, rfl, rfl⟩ rfl (by rfl) _ _
    · exact hstay
  | dispatchFec plaintext now =>
    simp only [State.step]
    split
    · rename_i hidle
      exact systemChanges_offer hres hidle _ (Quiet.refl _) rfl (by rfl) _ _
    · exact hstay
  | sendRedundant plaintext =>
    simp only [State.step]
    split
    · rename_i hidle
      refine DispatcherChanges.system (dispatcherChanges_quiet (Quiet.refl _) ?_ fun k => ?_) hres
      · rw [hidle]
        rfl
      · rw [hidle]
        rfl
    · exact hstay
  | dispatcher env =>
    refine (dispatcherStep_changes s env fun k => ?_).system hres
    have := hres k
    omega
  | worker i env =>
    refine (workerStep_changes s i env fun k => ?_).system hres
    have hle : workerHolds k (s.workers i).pc ≤ ∑ j, workerHolds k (s.workers j).pc :=
      Finset.single_le_sum (f := fun j => workerHolds k (s.workers j).pc)
        (fun _ _ => Nat.zero_le _) (Finset.mem_univ i)
    have := hres k
    omega

/-! ## Over a run -/

theorem move_id (x y : Entry n) (h : Move x y) : x.2.id = y.2.id := by
  cases h <;> rfl

theorem move_located (x y : Entry n) (h : Move x y) (hx : Located x.1 x.2) : Located y.1 y.2 := by
  cases h with
  | join job seq now member => exact hx
  | stamp p job now => cases p <;> exact hx
  | accepted job i =>
    have hnone : job.placed = [] := hx.1
    exact Or.inl (by simp only [Job.place, hnone, List.nil_append])
  | refused job => exact hx.1
  | unplaced job =>
    have hnone : job.placed = [] := hx.1
    simp [Located, hnone]
  | copied job i =>
    have hnone : job.placed = [] := hx.1
    exact Or.inl (by simp only [Job.place, hnone, List.nil_append])
  | uncopied job => exact hx.1
  | fetched job i => exact hx
  | sent job i member => exact hx
  | givenUp job i h =>
    obtain hone | ⟨-, a, hne, htwo⟩ : job.placed = [i] ∨
      (job.rerouted = true ∧ ∃ a ≠ i, job.placed = [a, i]) := hx
    · simp [Located, hone]
    · simp [Located, htwo, hne]
  | retried job i h =>
    -- Not rerouted before, so placed on this link only.
    rcases hx with hone | ⟨hre, -⟩
    · exact ⟨hone, rfl⟩
    · exact absurd hre (by simp [h])
  | rerouted job i k h =>
    have hone : job.placed = [i] := hx.1
    refine Or.inr ⟨hx.2, i, h.symm, ?_⟩
    simp only [Job.place, hone, List.singleton_append]
  | lost job i =>
    have hone : job.placed = [i] := hx.1
    simp [Located, hone]

/-- What holds of every reachable state. -/
structure Sane (s : State n) : Prop where
  reserved : Reserved s
  ids : (holdings s).map (·.2.id) = Multiset.range s.shared.offered
  located : ∀ e ∈ holdings s, Located e.1 e.2
  counted : s.shared.droppedTotal = UInt64.ofNat (s.shared.overflowed + s.shared.dropped.length)

theorem sane_init (cfg : Config n) : Sane (State.init cfg) := by
  have hempty : holdings (State.init cfg) = 0 := by
    simp [holdings, sharedEntries, State.init, LinkTx.new, dispatcherEntries, workerEntries,
      sentEntries]
  refine { reserved := fun k => ?_, ids := ?_, located := ?_, counted := rfl }
  · simp [State.init, LinkTx.new, dispatcherHolds, workerHolds]
  · rw [hempty]
    rfl
  · rw [hempty]
    simp

theorem sane_step (h : Sane s) (a : Action n) : Sane (s.step a) := by
  obtain ⟨⟨fresh, hfresh, hstep⟩, hreserved, hcounted⟩ := step_changes s a h.reserved
  have hids := hstep.conserved move_id
  refine { reserved := hreserved, ids := ?_, located := ?_, counted := ?_ }
  · rw [hids, h.ids]
    cases hfresh with
    | none hoffered => rw [hoffered, Multiset.map_zero, add_zero]
    | one p job hoffered hid hlocated =>
      rw [hoffered, Multiset.range_succ, Multiset.map_singleton, hid, add_comm,
        Multiset.singleton_add]
  · refine hstep.forall_mem move_located h.located ?_
    cases hfresh with
    | none hoffered => simp
    | one p job hoffered hid hlocated =>
      intro e he
      rw [Multiset.mem_singleton.1 he]
      exact hlocated
  · rw [h.counted, UInt64.add_comm] at hcounted
    exact (UInt64.add_right_inj _).mp hcounted

theorem sane_run (h : Sane s) (actions : List (Action n)) : Sane (s.run actions) := by
  induction actions generalizing s with
  | nil => exact h
  | cons a actions ih => exact ih (sane_step h a)

/-! ## Fates -/

theorem mem_entriesAt {p : Place n} {jobs : List (Job n)} :
    e ∈ entriesAt p jobs ↔ e.1 = p ∧ e.2 ∈ jobs := by
  simp only [entriesAt, Multiset.mem_coe, List.mem_map]
  constructor
  · rintro ⟨job, hjob, rfl⟩
    exact ⟨rfl, hjob⟩
  · rintro ⟨rfl, hjob⟩
    exact ⟨e.2, hjob, rfl⟩

/-- What the shared state accounts for: queued, sent, dropped and refused jobs. -/
theorem mem_sharedEntries :
    e ∈ sharedEntries sh ↔
      (∃ i, e.1 = .queue i ∧ e.2 ∈ (sh.queues i).jobs) ∨
      (∃ i, e.1 = .sent i ∧ (i, e.2) ∈ sh.sent) ∨
      (e.1 = .dropped ∧ e.2 ∈ sh.dropped) ∨ (e.1 = .refused ∧ e.2 ∈ sh.refused) := by
  have hsent : e ∈ sentEntries sh.sent ↔ ∃ i, e.1 = .sent i ∧ (i, e.2) ∈ sh.sent := by
    simp only [sentEntries, Multiset.mem_coe, List.mem_map]
    constructor
    · rintro ⟨x, hx, rfl⟩
      exact ⟨x.1, rfl, hx⟩
    · rintro ⟨i, hi, hx⟩
      exact ⟨(i, e.2), hx, Prod.ext hi.symm rfl⟩
  simp only [sharedEntries, Multiset.mem_add, Multiset.mem_sum, Finset.mem_univ, true_and,
    mem_entriesAt, hsent, or_assoc]

theorem mem_holdings :
    e ∈ holdings s ↔ e ∈ sharedEntries s.shared ∨ e ∈ dispatcherEntries s.dispatcher ∨
      ∃ i, e ∈ workerEntries (s.workers i).pc := by
  simp only [holdings, Multiset.mem_add, Multiset.mem_sum, Finset.mem_univ, true_and, or_assoc]

theorem mem_holdings_of_queue (h : job ∈ (s.shared.queues i).jobs) : (.queue i, job) ∈ holdings s :=
  mem_holdings.2 (.inl (mem_sharedEntries.2 (.inl ⟨i, rfl, h⟩)))

theorem mem_holdings_of_dispatcher (h : e ∈ dispatcherEntries s.dispatcher) : e ∈ holdings s :=
  mem_holdings.2 (.inr (.inl h))

theorem mem_holdings_of_worker (i : Fin n) (h : e ∈ workerEntries (s.workers i).pc) :
    e ∈ holdings s :=
  mem_holdings.2 (.inr (.inr ⟨i, h⟩))

theorem place_of_mem_workerEntries {pc : WorkerPc n i} (h : e ∈ workerEntries pc) :
    e.1 = .worker i ∨ e.1 = .rerouting i := by
  cases pc with
  | waiting => exact absurd h (Multiset.notMem_zero e)
  | fetched batch => exact .inl (mem_entriesAt.1 h).1
  | batched batch => exact .inl (mem_entriesAt.1 h).1
  | running rest => exact .inl (mem_entriesAt.1 h).1
  | rerouting job pc rest | holding job idx rest | raised job idx rest =>
    rcases Multiset.mem_add.1 h with hrest | hjob
    · exact .inl (mem_entriesAt.1 hrest).1
    · exact .inr (by rw [Multiset.mem_singleton.1 hjob])

/-- No task has a job in its hands. -/
def Settled (s : State n) : Prop := s.dispatcher = .idle ∧ ∀ i, (s.workers i).pc = .waiting

/-- The fates of the jobs of a send path.  `placed` lists the links whose queues
accepted a job, so `placed ≠ []` says that it was accepted. -/
structure Fates (s : State n) : Prop where
  /-- No job disappears. -/
  kept : ∀ id < s.shared.offered, ∃ e ∈ holdings s, e.2.id = id
  /-- No job is twice in one place or in two places. -/
  once : ∀ e ∈ holdings s, (holdings s).countP (fun e' => e'.2.id = e.2.id) = 1
  /-- At most two links, the second another than the first. -/
  placements : ∀ e ∈ holdings s, e.2.placed.length ≤ 2 ∧ e.2.placed.Nodup
  /-- Sent by the last link that accepted it. -/
  sender : ∀ i job, (.sent i, job) ∈ holdings s → job.placed.getLast? = some i
  /-- An accepted job is queued, in a worker's hands, sent, or dropped. -/
  accepted : ∀ e ∈ holdings s, e.2.placed ≠ [] →
    e.1 = .dropped ∨ ∃ i, e.1 = .queue i ∨ e.1 = .worker i ∨ e.1 = .rerouting i ∨ e.1 = .sent i
  /-- At rest an accepted job is queued, sent, or dropped. -/
  settled : Settled s → ∀ e ∈ holdings s, e.2.placed ≠ [] →
    (∃ i, e.1 = .queue i ∧ e.2 ∈ (s.shared.queues i).jobs) ∨
    (∃ i, e.1 = .sent i ∧ (i, e.2) ∈ s.shared.sent) ∨ (e.1 = .dropped ∧ e.2 ∈ s.shared.dropped)
  /-- Each drop is counted once; the rest of the total is the reader's overflow. -/
  counted : s.shared.droppedTotal = UInt64.ofNat (s.shared.overflowed + s.shared.dropped.length)

theorem Located.placements {p : Place n} (h : Located p job) :
    job.placed.length ≤ 2 ∧ job.placed.Nodup := by
  have htwo : ∀ i, job.placed = [i] ∨ (job.rerouted = true ∧ ∃ a ≠ i, job.placed = [a, i]) →
      job.placed.length ≤ 2 ∧ job.placed.Nodup := by
    rintro i (hone | ⟨-, a, hne, htwo⟩)
    · simp [hone]
    · simp [htwo, hne]
  cases p with
  | dispatcher => simp [h.1]
  | copying => simp [h.1]
  | queue i => exact htwo i h
  | worker i => exact htwo i h
  | rerouting i => exact htwo i (Or.inl h.1)
  | sent i => exact htwo i h
  | dropped => exact h
  | refused => simp [show job.placed = [] from h]

theorem Sane.once (h : Sane s) (he : e ∈ holdings s) :
    (holdings s).countP (fun e' => e'.2.id = e.2.id) = 1 := by
  have hcount : (holdings s).countP (fun e' => e'.2.id = e.2.id) =
      ((holdings s).map (·.2.id)).count e.2.id := by
    rw [Multiset.count_map, ← Multiset.countP_eq_card_filter]
    exact Multiset.countP_congr rfl fun e' _ => propext eq_comm
  have hmem : e.2.id ∈ (holdings s).map (·.2.id) := Multiset.mem_map_of_mem _ he
  rw [hcount, h.ids]
  rw [h.ids] at hmem
  exact Multiset.count_eq_one_of_mem (Multiset.nodup_range _) hmem

theorem Sane.id_lt (h : Sane s) (he : e ∈ holdings s) : e.2.id < s.shared.offered := by
  have hmem : e.2.id ∈ (holdings s).map (·.2.id) := Multiset.mem_map_of_mem _ he
  rwa [h.ids, Multiset.mem_range] at hmem

theorem Sane.unique (h : Sane s) {e' : Entry n} (he : e ∈ holdings s) (he' : e' ∈ holdings s)
    (hid : e.2.id = e'.2.id) : e = e' := by
  have hnodup : ((holdings s).map (·.2.id)).Nodup := by
    rw [h.ids]
    exact Multiset.nodup_range _
  exact Multiset.inj_on_of_nodup_map hnodup e he e' he' hid

/-- At rest every job is in the shared state. -/
theorem holdings_of_settled (h : Settled s) : holdings s = sharedEntries s.shared := by
  have hworkers : ∑ i, workerEntries (s.workers i).pc = 0 :=
    Finset.sum_eq_zero fun i _ => by rw [h.2 i]; rfl
  unfold holdings
  rw [h.1, hworkers]
  simp [dispatcherEntries]

/-- Every job has one fate, whatever the queue capacities, the links, the sends'
outcomes and the interleaving. -/
theorem one_fate {n : Nat} (cfg : Config n) (actions : List (Action n)) :
    Fates ((State.init cfg).run actions) := by
  have hsane := sane_run (sane_init cfg) actions
  generalize (State.init cfg).run actions = s at hsane
  refine { kept := ?_, once := fun e he => hsane.once he, placements := ?_, sender := ?_,
           accepted := ?_, settled := ?_, counted := hsane.counted }
  · intro id hid
    have hmem : id ∈ (holdings s).map (·.2.id) := by
      rw [hsane.ids]
      exact Multiset.mem_range.2 hid
    obtain ⟨e, he, rfl⟩ := Multiset.mem_map.1 hmem
    exact ⟨e, he, rfl⟩
  · intro e he
    exact (hsane.located e he).placements
  · intro i job he
    rcases hsane.located _ he with hone | ⟨-, a, -, htwo⟩
    · simp [show job.placed = [i] from hone]
    · simp [show job.placed = [a, i] from htwo]
  · intro e he hplaced
    have hlocated := hsane.located e he
    obtain ⟨p, job⟩ := e
    cases p with
    | dispatcher => exact absurd hlocated.1 hplaced
    | copying => exact absurd hlocated.1 hplaced
    | queue i => exact Or.inr ⟨i, Or.inl rfl⟩
    | worker i => exact Or.inr ⟨i, Or.inr (Or.inl rfl)⟩
    | rerouting i => exact Or.inr ⟨i, Or.inr (Or.inr (Or.inl rfl))⟩
    | sent i => exact Or.inr ⟨i, Or.inr (Or.inr (Or.inr rfl))⟩
    | dropped => exact Or.inl rfl
    | refused => exact absurd hlocated hplaced
  · intro hrest e he hplaced
    have hmem : e ∈ sharedEntries s.shared := holdings_of_settled hrest ▸ he
    rcases mem_sharedEntries.1 hmem with hqueue | hsent | hdropped | ⟨hrefused, -⟩
    · exact Or.inl hqueue
    · exact Or.inr (Or.inl hsent)
    · exact Or.inr (Or.inr hdropped)
    · have hlocated := hsane.located e he
      rw [hrefused] at hlocated
      exact absurd hlocated hplaced

/-- Permits never leak: a queue has reserved what the tasks hold, one slot each at most, and at
rest only its jobs take its slots. -/
theorem permits_returned {n : Nat} (cfg : Config n) (actions : List (Action n)) (k : Fin n) :
    let s := (State.init cfg).run actions
    (s.shared.queues k).permits =
        dispatcherHolds k s.dispatcher + ∑ i, workerHolds k (s.workers i).pc ∧
      (s.shared.queues k).permits ≤ 1 + n ∧
      (Settled s → (s.shared.queues k).free =
        (s.shared.queues k).capacity - (s.shared.queues k).jobs.length) := by
  intro s
  have hreserved := (sane_run (sane_init cfg) actions).reserved k
  have hdispatcher : dispatcherHolds k s.dispatcher ≤ 1 := by
    unfold dispatcherHolds
    split <;> first | omega | (split <;> omega)
  have hworkers : ∑ i, workerHolds k (s.workers i).pc ≤ ∑ _i : Fin n, 1 :=
    Finset.sum_le_sum fun i _ => by
      unfold workerHolds
      split <;> first | omega | (split <;> omega)
  rw [Fin.sum_const, smul_eq_mul, mul_one] at hworkers
  refine ⟨hreserved, hreserved.trans_le (Nat.add_le_add hdispatcher hworkers), fun hsettled => ?_⟩
  have hnone : (s.shared.queues k).permits = 0 := by
    rw [hreserved, hsettled.1, Finset.sum_eq_zero fun i _ => by rw [hsettled.2 i]; rfl]
    rfl
  rw [LinkTx.free, hnone, Nat.add_zero]

/-- A job placed on link 0, which has no remote, is rerouted to link 1 and sent. -/
example :
    let link : Fin 2 → LinkView := fun i => ⟨.Up, false, i = 1⟩
    let cfg : Config 2 := ⟨link, fun _ => 1, fun _ => false, fun _ => false, true, 0⟩
    let env : Env := ⟨some 0, 1, .ok true, [], 0⟩
    let s := (State.init cfg).run
      (.dispatch .Data [7] none 0 :: List.replicate 5 (.dispatcher env) ++
        List.replicate 14 (.worker 0 env) ++ List.replicate 4 (.worker 1 env))
    s.shared.sent.map (fun e => (e.1, e.2.placed)) = [(1, [0, 1])] ∧
      s.shared.droppedTotal = 0 := by
  decide +kernel

end Mlvpn.Ports.TxFate
