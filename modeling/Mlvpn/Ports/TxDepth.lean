import Mlvpn.Ports.TxFate

/-!
# The depth of a link's queue

`TxCounters::depth` is raised before a job is handed over and lowered by the worker when a
batch is finished, by two kinds of task, each with steps in between.  What a link's counter
has to do with its queue is an account of four numbers: the counter, the jobs in the queue,
those of the batch the worker is processing, and the enqueues that have raised the counter
and not handed over yet.  Six entries can be made in an account, and every step of the send
path makes one of them, or none.

## Main results

* `step_effect`: a step of the send path is an entry in the account of each link.
* `Balanced.effect`: an entry keeps the counter equal to the sum of the other three.
* `depth_exact`: so it is after every interleaving.
-/

namespace Mlvpn.Ports.TxDepth

open TxDispatch TxFate

def LINK_TX_QUEUE_CAPACITY : Nat := 128

/-! ## Accounts -/

@[ext] structure Account where
  capacity : Nat
  depth : UInt32
  queued : Nat
  batch : Nat
  raised : Nat
deriving Repr, DecidableEq

/-- The entries: an enqueue raises the counter, then hands its job over or undoes the raise;
the worker fetches a batch when it has none, and takes it off the counter when it is done. -/
inductive Effect : Account → Account → Prop
  | still (a : Account) : Effect a a
  | raise (a : Account) : Effect a { a with depth := a.depth + 1, raised := a.raised + 1 }
  | handOver (a : Account) :
      Effect { a with raised := a.raised + 1 } { a with queued := a.queued + 1 }
  | undo (a : Account) : Effect { a with raised := a.raised + 1 } { a with depth := a.depth - 1 }
  | fetch (a : Account) (m : Nat) (hle : m ≤ TX_WORKER_BATCH) (hidle : a.batch = 0) :
      Effect { a with queued := a.queued + m } { a with batch := m }
  | finish (a : Account) :
      Effect a { a with depth := a.depth - UInt32.ofNat a.batch, batch := 0 }

/-- The counter is the sum of the rest. -/
structure Balanced (a : Account) : Prop where
  depth : a.depth.toNat = a.queued + a.batch + a.raised
  batch : a.batch ≤ TX_WORKER_BATCH

/-- No entry but a raise can overflow, and none can underflow. -/
theorem Balanced.effect {a a' : Account} (h : Balanced a) (he : Effect a a')
    (hroom : a.queued + a.raised ≤ LINK_TX_QUEUE_CAPACITY + 1) : Balanced a' := by
  have hdepth := h.depth
  have hbatch := h.batch
  simp only [LINK_TX_QUEUE_CAPACITY, TX_WORKER_BATCH] at hroom hbatch
  cases he with
  | still => exact h
  | raise =>
    refine ⟨?_, h.batch⟩
    show (a.depth + 1).toNat = a.queued + a.batch + (a.raised + 1)
    rw [UInt32.toNat_add, UInt32.toNat_one]
    omega
  | handOver a =>
    refine ⟨?_, h.batch⟩
    show a.depth.toNat = a.queued + 1 + a.batch + a.raised
    simp only at hdepth
    omega
  | undo a =>
    refine ⟨?_, h.batch⟩
    simp only at hdepth
    have hle : (1 : UInt32) ≤ a.depth := by
      rw [UInt32.le_iff_toNat_le, UInt32.toNat_one]
      omega
    show (a.depth - 1).toNat = a.queued + a.batch + a.raised
    rw [UInt32.toNat_sub_of_le _ _ hle, UInt32.toNat_one]
    omega
  | fetch a m hle hidle =>
    refine ⟨?_, hle⟩
    show a.depth.toNat = a.queued + m + a.raised
    simp only at hdepth
    omega
  | finish =>
    refine ⟨?_, Nat.zero_le _⟩
    have hnat : (UInt32.ofNat a.batch).toNat = a.batch :=
      UInt32.toNat_ofNat_of_lt' (show a.batch < 2 ^ 32 by omega)
    have hle : UInt32.ofNat a.batch ≤ a.depth := by
      rw [UInt32.le_iff_toNat_le, hnat]
      omega
    show (a.depth - UInt32.ofNat a.batch).toNat = a.queued + 0 + a.raised
    rw [UInt32.toNat_sub_of_le _ _ hle, hnat]
    omega

/-! ## The account of a link -/

variable {n : Nat}

/-- The dispatcher is between the increment for link `k` and its hand-over. -/
def dispatcherRaised (k : Fin n) : Dispatcher n → Nat
  | .raised _ idx => if idx = k then 1 else 0
  | .copyRaised _ idx _ => if idx = k then 1 else 0
  | _ => 0

/-- Worker `i` is, with a job it reroutes. -/
def workerRaised (k : Fin n) {i : Fin n} : WorkerPc n i → Nat
  | .raised _ idx _ => if idx.1 = k then 1 else 0
  | _ => 0

/-- The enqueues on link `k` that are between their increment and their hand-over. -/
def raisedOn (s : State n) (k : Fin n) : Nat :=
  dispatcherRaised k s.dispatcher + ∑ i, workerRaised k (s.workers i).pc

def account (s : State n) (k : Fin n) : Account where
  capacity := (s.shared.queues k).capacity
  depth := (s.shared.queues k).counters.depth
  queued := (s.shared.queues k).jobs.length
  batch := (s.workers k).batchLen
  raised := raisedOn s k

/-- The counter stays, and as many jobs are queued. -/
structure Still (q q' : LinkTx n) : Prop where
  capacity : q'.capacity = q.capacity
  depth : q'.counters.depth = q.counters.depth
  jobs : q'.jobs.length = q.jobs.length

variable {s : State n} {sh : Shared n} {i : Fin n} {k : Fin n} {q : LinkTx n} {q' : LinkTx n}
  {rest : Rest n}

theorem Still.refl (q : LinkTx n) : Still q q := ⟨rfl, rfl, rfl⟩

theorem Still.trans {q'' : LinkTx n} (h : Still q q') (h' : Still q' q'') : Still q q'' :=
  ⟨h'.capacity.trans h.capacity, h'.depth.trans h.depth, h'.jobs.trans h.jobs⟩

/-- What an enqueue does to a queue, with its part of the raised enqueues before and after. -/
inductive QueueEffect (q q' : LinkTx n) : Nat → Nat → Prop
  | still (h : Still q q') (r : Nat) : QueueEffect q q' r r
  | raise (hcap : q'.capacity = q.capacity)
      (hdepth : q'.counters.depth = q.counters.depth + 1)
      (hjobs : q'.jobs.length = q.jobs.length) : QueueEffect q q' 0 1
  | handOver (hcap : q'.capacity = q.capacity)
      (hdepth : q'.counters.depth = q.counters.depth)
      (hjobs : q'.jobs.length = q.jobs.length + 1) : QueueEffect q q' 1 0
  | undo (hcap : q'.capacity = q.capacity)
      (hdepth : q'.counters.depth = q.counters.depth - 1)
      (hjobs : q'.jobs.length = q.jobs.length) : QueueEffect q q' 1 0

/-- An enqueue is an entry, whoever makes it. -/
theorem QueueEffect.effect {r r' : Nat} (h : QueueEffect q q' r r') (batch rest : Nat) :
    Effect ⟨q.capacity, q.counters.depth, q.jobs.length, batch, rest + r⟩
      ⟨q'.capacity, q'.counters.depth, q'.jobs.length, batch, rest + r'⟩ := by
  cases h with
  | still h =>
    rw [h.capacity, h.depth, h.jobs]
    exact Effect.still _
  | raise hcap hdepth hjobs =>
    rw [hcap, hdepth, hjobs]
    exact Effect.raise _
  | handOver hcap hdepth hjobs =>
    rw [hcap, hdepth, hjobs]
    exact Effect.handOver ⟨_, _, _, _, rest⟩
  | undo hcap hdepth hjobs =>
    rw [hcap, hdepth, hjobs]
    exact Effect.undo ⟨_, _, _, _, rest⟩

/-! ## Queues -/

/-- Another link's queue is replaced. -/
theorem setQueue_other (sh : Shared n) (q : LinkTx n) (h : i ≠ k) :
    (sh.setQueue i q).queues k = sh.queues k :=
  Function.update_of_ne (Ne.symm h) _ _

theorem setQueue_self (sh : Shared n) (i : Fin n) (q : LinkTx n) : (sh.setQueue i q).queues i = q :=
  Function.update_self _ _ _

theorem still_setQueue (h : Still (sh.queues i) q) (k : Fin n) :
    Still (sh.queues k) ((sh.setQueue i q).queues k) := by
  by_cases hik : i = k
  · subst hik
    rw [setQueue_self]
    exact h
  · rw [setQueue_other sh q hik]
    exact Still.refl _

theorem still_count (sh : Shared n) (i : Fin n) (f : TxCounters → TxCounters)
    (h : ∀ c, (f c).depth = c.depth) (k : Fin n) : Still (sh.queues k) ((sh.count i f).queues k) :=
  still_setQueue (q := (sh.queues i).count f) ⟨rfl, h _, rfl⟩ k

theorem still_tryReserve (h : q.tryReserve = .ok q') : Still q q' := by
  obtain ⟨-, -, rfl⟩ := LinkTx.tryReserve_eq_ok h
  exact ⟨rfl, rfl, rfl⟩

variable {a a' : Account} {idx : Fin n} {job : Job n} (cfg : Config n) {d : Dispatcher n}
  {pc : WorkerPc n i}

theorem trySend_keeps (h : q.trySend job = .ok q') :
    q'.capacity = q.capacity ∧ q'.counters.depth = q.counters.depth := by
  obtain ⟨-, rfl⟩ := LinkTx.trySend_eq_ok h
  exact ⟨rfl, rfl⟩

/-- A step of `spill_reserve` leaves every counter and every queue as it is. -/
theorem still_spill {fromLink : Fin n} {sh' : Shared n} {pc : Spill n fromLink}
    {out : Spilled n fromLink} (h : pc.Moves sh sh' out) (k : Fin n) :
    Still (sh.queues k) (sh'.queues k) := by
  cases h with
  | goesOn hfit => exact Still.refl _
  | fails => exact Still.refl _
  | takes hq =>
    exact (still_setQueue (still_tryReserve hq) k).trans
      (still_count _ fromLink (fun c => { c with reroutedAway := c.reroutedAway + 1 })
        (fun _ => rfl) k)

/-- The increment of `send_reserved` and `try_enqueue`. -/
theorem queueEffect_raise (sh : Shared n) (idx k : Fin n) :
    QueueEffect (sh.queues k) ((sh.raise idx).queues k) 0 (if idx = k then 1 else 0) := by
  by_cases h : idx = k
  · subst h
    rw [if_pos rfl, Shared.raise, Shared.count, setQueue_self]
    exact .raise rfl rfl rfl
  · rw [if_neg h, Shared.raise, Shared.count, setQueue_other sh _ h]
    exact .still (Still.refl _) 0

/-- The hand-over of a reserved slot. -/
theorem queueEffect_handOver (job : Job n) (hpos : 0 < (sh.queues idx).permits) (k : Fin n) :
    QueueEffect (sh.queues k) ((sh.handOver idx job).queues k) (if idx = k then 1 else 0) 0 := by
  by_cases h : idx = k
  · subst h
    rw [if_pos rfl, Shared.handOver, setQueue_self, LinkTx.send, dif_pos hpos]
    exact .handOver rfl rfl (by rw [List.length_append, List.length_singleton])
  · rw [if_neg h, Shared.handOver, setQueue_other sh _ h]
    exact .still (Still.refl _) 0

/-- `try_send` took the job. -/
theorem queueEffect_trySend (h : (sh.queues idx).trySend job = .ok q) (k : Fin n) :
    QueueEffect (sh.queues k) ((sh.setQueue idx q).queues k) (if idx = k then 1 else 0) 0 := by
  by_cases hk : idx = k
  · subst hk
    rw [if_pos rfl, setQueue_self]
    refine .handOver (trySend_keeps h).1 (trySend_keeps h).2 ?_
    rw [(trySend_ok h).1, List.length_append, List.length_singleton]
  · rw [if_neg hk, setQueue_other sh q hk]
    exact .still (Still.refl _) 0

/-- It did not, and the increment is undone. -/
theorem queueEffect_undo (sh : Shared n) (idx : Fin n) (f : TxCounters → TxCounters)
    (h : ∀ c, (f c).depth = c.depth - 1) (k : Fin n) :
    QueueEffect (sh.queues k) ((sh.count idx f).queues k) (if idx = k then 1 else 0) 0 := by
  by_cases hk : idx = k
  · subst hk
    rw [if_pos rfl, Shared.count, setQueue_self]
    exact .undo rfl (h _) rfl
  · rw [if_neg hk, Shared.count, setQueue_other sh _ hk]
    exact .still (Still.refl _) 0

/-! ## The dispatcher -/

theorem effect_setDispatcher
    (h : QueueEffect (s.shared.queues k) (sh.queues k) (dispatcherRaised k s.dispatcher)
      (dispatcherRaised k d)) :
    Effect (account s k) (account (s.setDispatcher sh d) k) := by
  have heffect := h.effect (s.workers k).batchLen (∑ i, workerRaised k (s.workers i).pc)
  rw [Nat.add_comm _ (dispatcherRaised k _), Nat.add_comm _ (dispatcherRaised k d)] at heffect
  exact heffect

/-- The dispatcher goes on without touching a queue. -/
theorem effect_quiet (hstill : Still (s.shared.queues k) (sh.queues k))
    (hraised : dispatcherRaised k d = dispatcherRaised k s.dispatcher) :
    Effect (account s k) (account (s.setDispatcher sh d) k) := by
  refine effect_setDispatcher ?_
  rw [hraised]
  exact .still hstill _

theorem dispatcherStep_effect (s : State n) (env : Env)
    (hres : ∀ k, dispatcherHolds k s.dispatcher ≤ (s.shared.queues k).permits) (k : Fin n) :
    Effect (account s k) (account (s.dispatcherStep env) k) := by
  obtain ⟨sh', d', hstep, hmove⟩ := s.dispatcherStep_eq env
  rw [hstep]
  obtain ⟨sh, d, ws⟩ := s
  have hfull : ∀ idx, Still (sh.queues k)
      ((sh.count idx fun c => { c with queueFull := c.queueFull + 1 }).queues k) :=
    fun idx =>
      still_count sh idx (fun c => { c with queueFull := c.queueFull + 1 }) (fun _ => rfl) k
  cases hmove with
  | reserves hq => exact effect_quiet (still_setQueue (still_tryReserve hq) k) rfl
  | overflows hspill hq => exact effect_quiet (hfull _) rfl
  | drops hq => exact effect_quiet (hfull _) rfl
  | spills hpc => exact effect_quiet (still_spill hpc k) rfl
  | spilled hpc => exact effect_quiet (still_spill hpc k) rfl
  | givesUp hpc => exact effect_quiet (still_spill hpc k) rfl
  | raises => exact effect_setDispatcher (queueEffect_raise sh _ k)
  | @handsOver job idx =>
    have hpos : 0 < (sh.queues idx).permits := by
      have hheld := hres idx
      simp only [dispatcherHolds, if_pos] at hheld
      omega
    exact effect_setDispatcher (queueEffect_handOver job hpos k)
  | copies =>
    exact effect_setDispatcher (queueEffect_raise { sh with offered := sh.offered + 1 } _ k)
  | enqueues hq => exact effect_setDispatcher (queueEffect_trySend hq k)
  | undoes f hf => exact effect_setDispatcher (queueEffect_undo (sh.refuse _) _ f hf k)
  | _ => exact effect_quiet (Still.refl _) rfl

/-! ## The workers -/

/-- The raised enqueues of everyone but worker `i`. -/
def raisedElsewhere (s : State n) (i k : Fin n) : Nat :=
  dispatcherRaised k s.dispatcher + ∑ j ∈ Finset.univ.erase i, workerRaised k (s.workers j).pc

theorem raisedOn_eq (s : State n) (i k : Fin n) :
    raisedOn s k = raisedElsewhere s i k + workerRaised k (s.workers i).pc := by
  have hsplit := Finset.add_sum_erase Finset.univ (fun j => workerRaised k (s.workers j).pc)
    (Finset.mem_univ i)
  unfold raisedOn raisedElsewhere
  omega

theorem setWorker_self (s : State n) (sh : Shared n) (i : Fin n) (w : Worker n i) :
    (s.setWorker sh i w).workers i = w :=
  Function.update_self _ _ _

theorem setWorker_other (s : State n) (sh : Shared n) (w : Worker n i) (h : k ≠ i) :
    (s.setWorker sh i w).workers k = s.workers k :=
  Function.update_of_ne h _ _

theorem raisedOn_setWorker (s : State n) (sh : Shared n) (i k : Fin n) (w : Worker n i) :
    raisedOn (s.setWorker sh i w) k = raisedElsewhere s i k + workerRaised k w.pc := by
  have hothers : ∑ j ∈ Finset.univ.erase i, workerRaised k ((s.setWorker sh i w).workers j).pc =
      ∑ j ∈ Finset.univ.erase i, workerRaised k (s.workers j).pc := by
    refine Finset.sum_congr rfl fun j hj => ?_
    rw [setWorker_other s sh w (Finset.ne_of_mem_erase hj)]
  rw [raisedOn_eq _ i, setWorker_self]
  unfold raisedElsewhere
  rw [hothers]
  rfl

/-- Worker `i` goes on with the same batch. -/
theorem effect_goOn
    (h : QueueEffect (s.shared.queues k) (sh.queues k) (workerRaised k (s.workers i).pc)
      (workerRaised k pc)) :
    Effect (account s k) (account (s.goOn sh i pc) k) := by
  have hbatch : ((s.goOn sh i pc).workers k).batchLen = (s.workers k).batchLen := by
    by_cases hki : k = i
    · subst hki
      rw [State.goOn, setWorker_self]
    · rw [State.goOn, setWorker_other s sh _ hki]
  have heffect := h.effect (s.workers k).batchLen (raisedElsewhere s i k)
  have hbefore : account s k = ⟨(s.shared.queues k).capacity, (s.shared.queues k).counters.depth,
      (s.shared.queues k).jobs.length, (s.workers k).batchLen,
      raisedElsewhere s i k + workerRaised k (s.workers i).pc⟩ :=
    Account.ext rfl rfl rfl rfl (raisedOn_eq s i k)
  have hafter : account (s.goOn sh i pc) k = ⟨(sh.queues k).capacity, (sh.queues k).counters.depth,
      (sh.queues k).jobs.length, (s.workers k).batchLen,
      raisedElsewhere s i k + workerRaised k pc⟩ :=
    Account.ext rfl rfl rfl hbatch (raisedOn_setWorker s sh i k _)
  rw [hbefore, hafter]
  exact heffect

/-- It goes on without touching a queue. -/
theorem effect_goOn_quiet (hstill : Still (s.shared.queues k) (sh.queues k))
    (hraised : workerRaised k pc = workerRaised k (s.workers i).pc) :
    Effect (account s k) (account (s.goOn sh i pc) k) := by
  refine effect_goOn ?_
  rw [hraised]
  exact .still hstill _

theorem effect_sendFailed (hpc : (s.workers i).pc = .running rest) (job : Job n) (rest' : Rest n)
    (k : Fin n) : Effect (account s k) (account (s.sendFailed i job rest') k) := by
  have hstill := still_count s.shared i (fun c => { c with sendFailed := c.sendFailed + 1 })
    (fun _ => rfl) k
  unfold State.sendFailed
  dsimp only
  split <;> exact effect_goOn_quiet hstill (by rw [hpc]; rfl)

theorem effect_sent (hpc : (s.workers i).pc = .running rest) (job : Job n) (carried : Bool)
    (rest' : Rest n) (k : Fin n) :
    Effect (account s k)
      (account (s.goOn (State.noteSent s.shared i job carried) i (.running rest')) k) :=
  effect_goOn_quiet (Still.refl _) (by rw [hpc]; rfl)

/-- The end of a batch is the one entry that lowers the counter for good. -/
theorem effect_finishBatch (hpc : (s.workers i).pc = .running rest) (active : Bool) (k : Fin n) :
    Effect (account s k) (account (s.finishBatch i active) k) := by
  have hraised : raisedOn (s.finishBatch i active) k = raisedOn s k := by
    rw [State.finishBatch, raisedOn_setWorker, raisedOn_eq s i k, hpc]
    rfl
  by_cases hki : k = i
  · subst hki
    have hself : (s.finishBatch k active).workers k = { active, batchLen := 0, pc := .waiting } :=
      setWorker_self s _ k _
    have hafter : account (s.finishBatch k active) k =
        { account s k with
          depth := (account s k).depth - UInt32.ofNat (account s k).batch, batch := 0 } := by
      refine Account.ext ?_ ?_ ?_ (congrArg Worker.batchLen hself) hraised
      · show ((s.shared.setQueue k _).queues k).capacity = _
        rw [setQueue_self]
        rfl
      · show ((s.shared.setQueue k _).queues k).counters.depth = _
        rw [setQueue_self]
        rfl
      · show ((s.shared.setQueue k _).queues k).jobs.length = _
        rw [setQueue_self]
        rfl
    rw [hafter]
    exact Effect.finish _
  · have hqueue : (s.finishBatch i active).shared.queues k = s.shared.queues k :=
      setQueue_other s.shared _ (Ne.symm hki)
    have hworker : (s.finishBatch i active).workers k = s.workers k :=
      setWorker_other s _ _ hki
    have hafter : account (s.finishBatch i active) k = account s k :=
      Account.ext (congrArg LinkTx.capacity hqueue) (congrArg (fun q => q.counters.depth) hqueue)
        (congrArg (fun q => q.jobs.length) hqueue) (congrArg Worker.batchLen hworker) hraised
    rw [hafter]
    exact Effect.still _

/-- A fetch moves jobs from the queue to the batch. -/
theorem effect_recvMany (hpc : (s.workers i).pc = .waiting) (hidle : (s.workers i).batchLen = 0)
    {m : Nat} (hm : m ≤ TX_WORKER_BATCH) (k : Fin n) :
    Effect (account s k)
      (account (s.setWorker (s.shared.setQueue i ((s.shared.queues i).recvMany m).2) i
        { s.workers i with batchLen := ((s.shared.queues i).recvMany m).1.length
                           pc := .fetched ((s.shared.queues i).recvMany m).1 }) k) := by
  generalize hs' : s.setWorker _ i _ = s'
  have hraised : raisedOn s' k = raisedOn s k := by
    rw [← hs', raisedOn_setWorker, raisedOn_eq s i k, hpc]
    rfl
  by_cases hki : k = i
  · subst hki
    have htake : ((s.shared.queues k).recvMany m).1.length ≤ TX_WORKER_BATCH :=
      (List.length_take_le _ _).trans hm
    have hsplit : (s.shared.queues k).jobs.length =
        ((s.shared.queues k).recvMany m).2.jobs.length +
          ((s.shared.queues k).recvMany m).1.length := by
      show _ = ((s.shared.queues k).jobs.drop m).length + ((s.shared.queues k).jobs.take m).length
      rw [List.length_drop, List.length_take]
      omega
    have hqueue : s'.shared.queues k = ((s.shared.queues k).recvMany m).2 := by
      rw [← hs']
      exact setQueue_self _ _ _
    have hworker : (s'.workers k).batchLen = ((s.shared.queues k).recvMany m).1.length := by
      rw [← hs', setWorker_self]
    have hbefore : account s k =
        { (⟨(s.shared.queues k).capacity, (s.shared.queues k).counters.depth,
            ((s.shared.queues k).recvMany m).2.jobs.length, 0, raisedOn s k⟩ : Account) with
          queued := ((s.shared.queues k).recvMany m).2.jobs.length +
            ((s.shared.queues k).recvMany m).1.length } :=
      Account.ext rfl rfl hsplit hidle rfl
    have hafter : account s' k =
        { (⟨(s.shared.queues k).capacity, (s.shared.queues k).counters.depth,
            ((s.shared.queues k).recvMany m).2.jobs.length, 0, raisedOn s k⟩ : Account) with
          batch := ((s.shared.queues k).recvMany m).1.length } := by
      refine Account.ext ?_ ?_ ?_ hworker hraised
      · show (s'.shared.queues k).capacity = _
        rw [hqueue]
        rfl
      · show (s'.shared.queues k).counters.depth = _
        rw [hqueue]
        rfl
      · show (s'.shared.queues k).jobs.length = _
        rw [hqueue]
    rw [hbefore, hafter]
    exact Effect.fetch _ _ htake rfl
  · have hqueue : s'.shared.queues k = s.shared.queues k := by
      rw [← hs']
      exact setQueue_other s.shared _ (Ne.symm hki)
    have hworker : s'.workers k = s.workers k := by
      rw [← hs', setWorker_other s _ _ hki]
    have hafter : account s' k = account s k :=
      Account.ext (congrArg LinkTx.capacity hqueue) (congrArg (fun q => q.counters.depth) hqueue)
        (congrArg (fun q => q.jobs.length) hqueue) (congrArg Worker.batchLen hworker) hraised
    rw [hafter]
    exact Effect.still _

theorem workerStep_effect (s : State n) (i : Fin n) (env : Env)
    (hres : ∀ k, workerHolds k (s.workers i).pc ≤ (s.shared.queues k).permits)
    (hidle : (s.workers i).pc = .waiting → (s.workers i).batchLen = 0) (k : Fin n) :
    Effect (account s k) (account (s.workerStep i env) k) := by
  have hmove := workerStep_moves s i env
  generalize s.workerStep i env = s' at hmove ⊢
  cases hmove with
  | rests hpc => exact Effect.still _
  | fetches hpc hm hsome => exact effect_recvMany hpc (hidle hpc) hm k
  | finishes active hpc hjobs => exact effect_finishBatch hpc active k
  | sends hpc hjobs => exact effect_sent hpc _ _ _ k
  | fails hpc hjobs => exact effect_sendFailed hpc _ _ k
  | spills hpc hmove => exact effect_goOn_quiet (still_spill hmove k) (by rw [hpc]; rfl)
  | spilled hpc hmove => exact effect_goOn_quiet (still_spill hmove k) (by rw [hpc]; rfl)
  | givesUp hpc hmove => exact effect_goOn_quiet (still_spill hmove k) (by rw [hpc]; rfl)
  | raises hpc =>
    refine effect_goOn ?_
    rw [hpc]
    exact queueEffect_raise s.shared _ k
  | @handsOver job rest idx hpc =>
    have hpos : 0 < (s.shared.queues idx).permits := by
      have hheld := hres idx
      rw [hpc] at hheld
      simp only [workerHolds, if_pos] at hheld
      omega
    refine effect_goOn ?_
    rw [hpc]
    exact queueEffect_handOver job hpos k
  | batches hpc => exact effect_goOn_quiet (Still.refl _) (by rw [hpc]; rfl)
  | starts hpc => exact effect_goOn_quiet (Still.refl _) (by rw [hpc]; rfl)
  | answers hpc hlen => exact effect_goOn_quiet (Still.refl _) (by rw [hpc]; rfl)

/-! ## Batches -/

/-- `batch_len` against the batch itself: none while the worker waits, and the whole batch
when it has just been fetched. -/
def Counted {i : Fin n} (batchLen : Nat) : WorkerPc n i → Prop
  | .waiting => batchLen = 0
  | .fetched batch => batchLen = batch.length ∧ 0 < batchLen
  | _ => 0 < batchLen

theorem counted_goOn (h : Counted (s.workers i).batchLen pc) :
    Counted ((s.goOn sh i pc).workers i).batchLen ((s.goOn sh i pc).workers i).pc := by
  rw [State.goOn, setWorker_self]
  exact h

theorem counted_sendFailed (h : 0 < (s.workers i).batchLen) (job : Job n) (rest : Rest n) :
    Counted ((s.sendFailed i job rest).workers i).batchLen
      ((s.sendFailed i job rest).workers i).pc := by
  unfold State.sendFailed
  dsimp only
  split <;> exact counted_goOn h

theorem counted_finishBatch (s : State n) (i : Fin n) (active : Bool) :
    Counted ((s.finishBatch i active).workers i).batchLen
      ((s.finishBatch i active).workers i).pc := by
  rw [State.finishBatch, setWorker_self]
  rfl

/-- A worker counts its batch when it fetches it and clears the count when it is done. -/
theorem counted_workerStep (env : Env) (h : Counted (s.workers i).batchLen (s.workers i).pc) :
    Counted ((s.workerStep i env).workers i).batchLen ((s.workerStep i env).workers i).pc := by
  have hkeep := h
  have hmove := workerStep_moves s i env
  generalize s.workerStep i env = s' at hmove ⊢
  cases hmove with
  | rests hpc => exact h
  | fetches hpc hm hsome =>
    rw [setWorker_self]
    exact ⟨rfl, List.length_pos_iff.mpr hsome⟩
  | batches hpc =>
    rw [hpc] at hkeep
    exact counted_goOn hkeep.2
  | starts hpc =>
    rw [hpc] at hkeep
    exact counted_goOn hkeep.2
  | finishes active hpc hjobs => exact counted_finishBatch s i active
  | fails hpc hjobs =>
    rw [hpc] at hkeep
    exact counted_sendFailed hkeep _ _
  | _ hpc =>
    rw [hpc] at hkeep
    exact counted_goOn hkeep

theorem Counted.eq_zero_iff {batchLen : Nat} {pc : WorkerPc n i} (h : Counted batchLen pc) :
    batchLen = 0 ↔ pc = .waiting := by
  cases pc with
  | waiting => exact ⟨fun _ => rfl, fun _ => h⟩
  | fetched batch => exact ⟨fun h0 => absurd h0 h.2.ne', fun hpc => by cases hpc⟩
  | _ => exact ⟨fun h0 => absurd h0 (Nat.ne_of_gt h), fun hpc => by cases hpc⟩

/-! ## The system -/

/-- Every worker counts its batch. -/
def BatchesCounted (s : State n) : Prop :=
  ∀ i, Counted (s.workers i).batchLen (s.workers i).pc

theorem workerHolds_le (h : Reserved s) (i k : Fin n) :
    workerHolds k (s.workers i).pc ≤ (s.shared.queues k).permits := by
  have hle : workerHolds k (s.workers i).pc ≤ ∑ j, workerHolds k (s.workers j).pc :=
    Finset.single_le_sum (f := fun j => workerHolds k (s.workers j).pc)
      (fun _ _ => Nat.zero_le _) (Finset.mem_univ i)
  have hk := h k
  omega

theorem dispatcherHolds_le (h : Reserved s) (k : Fin n) :
    dispatcherHolds k s.dispatcher ≤ (s.shared.queues k).permits := by
  have hk := h k
  omega

/-- Whatever the step, it is an entry in the account of each link. -/
theorem step_effect (hres : Reserved s) (hcounted : BatchesCounted s) (a : Action n) (k : Fin n) :
    Effect (account s k) (account (s.step a) k) := by
  cases a with
  | setLink i view => exact Effect.still _
  | setDelivery i ppm =>
    exact effect_quiet (still_count s.shared i (fun c => { c with deliveryPpm := ppm })
      (fun _ => rfl) k) rfl
  | overflow => exact Effect.still _
  | dispatch ptype plaintext forced now =>
    simp only [State.step]
    split
    case h_1 hidle => exact effect_quiet (Still.refl _) (by rw [hidle]; rfl)
    case h_2 => exact Effect.still _
  | dispatchFec plaintext now =>
    simp only [State.step]
    split
    case h_1 hidle => exact effect_quiet (Still.refl _) (by rw [hidle]; rfl)
    case h_2 => exact Effect.still _
  | sendRedundant plaintext =>
    simp only [State.step]
    split
    case h_1 hidle => exact effect_quiet (Still.refl _) (by rw [hidle]; rfl)
    case h_2 => exact Effect.still _
  | dispatcher env => exact dispatcherStep_effect s env (dispatcherHolds_le hres) k
  | worker i env =>
    refine workerStep_effect s i env (workerHolds_le hres i) (fun hpc => ?_) k
    have hi := hcounted i
    rw [hpc] at hi
    exact hi

theorem batchesCounted_step (hres : Reserved s) (h : BatchesCounted s) (a : Action n) :
    BatchesCounted (s.step a) := by
  cases a with
  | setLink i view => exact h
  | setDelivery i ppm => exact h
  | overflow => exact h
  | dispatch ptype plaintext forced now =>
    simp only [State.step]
    split <;> exact h
  | dispatchFec plaintext now =>
    simp only [State.step]
    split <;> exact h
  | sendRedundant plaintext =>
    simp only [State.step]
    split <;> exact h
  | dispatcher env =>
    obtain ⟨hworkers, -⟩ := dispatcherStep_changes s env (dispatcherHolds_le hres)
    intro j
    show Counted ((s.dispatcherStep env).workers j).batchLen ((s.dispatcherStep env).workers j).pc
    rw [hworkers]
    exact h j
  | worker i env =>
    obtain ⟨-, hothers, -⟩ := workerStep_changes s i env (workerHolds_le hres i)
    intro j
    by_cases hji : j = i
    · subst hji
      exact counted_workerStep env (h j)
    · show Counted ((s.workerStep i env).workers j).batchLen ((s.workerStep i env).workers j).pc
      rw [hothers j hji]
      exact h j

/-! ## Runs -/

/-- No more enqueues are under way for a link than it has reserved, one copy apart. -/
theorem raisedOn_le (h : Reserved s) (k : Fin n) :
    raisedOn s k ≤ (s.shared.queues k).permits + 1 := by
  have hworkers : ∑ i, workerRaised k (s.workers i).pc ≤ ∑ i, workerHolds k (s.workers i).pc := by
    refine Finset.sum_le_sum fun i _ => ?_
    cases (s.workers i).pc with
    | raised job idx rest => exact Nat.le_refl _
    | _ => exact Nat.zero_le _
  have hdispatcher : dispatcherRaised k s.dispatcher ≤ dispatcherHolds k s.dispatcher + 1 := by
    cases s.dispatcher with
    | raised job idx => exact Nat.le_succ _
    | copyRaised job idx targets =>
      simp only [dispatcherRaised, dispatcherHolds]
      split <;> omega
    | _ => exact Nat.zero_le _
  have hk := h k
  unfold raisedOn
  omega

/-- The send path as it is set up: every queue is bounded by `LINK_TX_QUEUE_CAPACITY`. -/
def launch (cfg : Config n) : State n :=
  State.init { cfg with capacity := fun _ => LINK_TX_QUEUE_CAPACITY }

/-- What every interleaving keeps. -/
structure Exact (s : State n) : Prop where
  sane : Sane s
  counted : BatchesCounted s
  capacity : ∀ k, (account s k).capacity = LINK_TX_QUEUE_CAPACITY
  balanced : ∀ k, Balanced (account s k)

theorem Effect.capacity (h : Effect a a') : a'.capacity = a.capacity := by
  cases h <;> rfl

/-- Between a fetch and the end of the batch its length stays. -/
theorem Effect.batch (h : Effect a a') : a'.batch = a.batch ∨ a.batch = 0 ∨ a'.batch = 0 := by
  cases h with
  | fetch a m hle hidle => exact Or.inr (Or.inl hidle)
  | finish => exact Or.inr (Or.inr rfl)
  | _ => exact Or.inl rfl

theorem exact_launch : Exact (launch cfg) where
  sane := sane_init _
  counted := fun _ => rfl
  capacity := fun _ => rfl
  balanced := fun k => by
    have hraised : raisedOn (launch cfg) k = 0 := by
      show 0 + ∑ i : Fin n, 0 = 0
      simp
    refine ⟨?_, Nat.zero_le _⟩
    show 0 = 0 + 0 + raisedOn (launch cfg) k
    rw [hraised]

theorem Exact.step (h : Exact s) (a : Action n) : Exact (s.step a) := by
  have hres := h.sane.reserved
  have heffect := step_effect hres h.counted a
  refine ⟨sane_step h.sane a, batchesCounted_step hres h.counted a, fun k => ?_, fun k => ?_⟩
  · rw [(heffect k).capacity]
    exact h.capacity k
  · refine (h.balanced k).effect (heffect k) ?_
    have hraised := raisedOn_le hres k
    have hroom := (s.shared.queues k).room
    have hcap : (s.shared.queues k).capacity = LINK_TX_QUEUE_CAPACITY := h.capacity k
    show (s.shared.queues k).jobs.length + raisedOn s k ≤ LINK_TX_QUEUE_CAPACITY + 1
    omega

theorem exact_run (actions : List (Action n)) : Exact ((launch cfg).run actions) := by
  have hrun : ∀ s : State n, Exact s → Exact (s.run actions) := by
    induction actions with
    | nil => exact fun s h => h
    | cons a actions ih => exact fun s h => ih (s.step a) (h.step a)
  exact hrun _ (exact_launch cfg)

/-- The depth of a link after any interleaving.  What a failed enqueue undoes and what the
worker takes off at the end of its batch has been counted, so the counter is never lowered
below zero; and when no enqueue is between its increment and its hand-over it is the queue
plus the batch.  The batch is counted when the worker fetches it, and stays counted until the
worker waits again. -/
theorem depth_exact (cfg : Config n) (actions : List (Action n)) (k : Fin n) :
    let s := (launch cfg).run actions
    let depth := (s.shared.queues k).counters.depth.toNat
    let batch := (s.workers k).batchLen
    (raisedOn s k ≤ depth ∧ batch ≤ depth) ∧
    (raisedOn s k = 0 → depth = (s.shared.queues k).jobs.length + batch) ∧
    (batch = 0 ↔ (s.workers k).pc = .waiting) ∧
    (∀ jobs, (s.workers k).pc = .fetched jobs → batch = jobs.length) ∧
    (∀ a, ((s.step a).workers k).batchLen = batch ∨ (s.workers k).pc = .waiting ∨
      ((s.step a).workers k).pc = .waiting) := by
  intro s depth batch
  have h : Exact s := exact_run cfg actions
  have hdepth : depth = (s.shared.queues k).jobs.length + batch + raisedOn s k :=
    (h.balanced k).depth
  refine ⟨⟨by omega, by omega⟩, fun hnone => by omega, (h.counted k).eq_zero_iff, ?_, ?_⟩
  · intro jobs hpc
    have hcounted := h.counted k
    rw [hpc] at hcounted
    exact hcounted.1
  · intro a
    rcases (step_effect h.sane.reserved h.counted a k).batch with hsame | hidle | hdone
    · exact Or.inl hsame
    · exact Or.inr (Or.inl ((h.counted k).eq_zero_iff.mp hidle))
    · exact Or.inr (Or.inr (((h.step a).counted k).eq_zero_iff.mp hdone))

end Mlvpn.Ports.TxDepth
