import Mlvpn.Ports.TxFate

/-!
# Where a frame is bound for

Between the choice of a link for a frame and the hand-over to its queue a task takes
several steps.  `Bound` says that a task is past that choice; `Trying` that it is about
to reserve a slot for a spill.  A queue grows only by a frame that was bound for it
(`step_jobs`), and a frame becomes bound in four ways only (`step_bound`): forced and
usable, picked, spilled to a slot that was free, or copied to a target of redundant
mode.  The rest says what a step leaves alone, and how the dispatcher comes to spill, to
refuse a job or to copy one.

## Main results

* `step_jobs`: what a step does to the jobs of a queue.
* `step_bound`, `step_trying`: how a step binds a frame to a link.
* `step_kept`, `step_links`, `step_refused`, `step_taken`: what a step does to the rest of
  the shared state.
-/

namespace Mlvpn.Ports.TxDispatch

open Protocol
open TxFate (Entry tryReserve_ok trySend_ok holdings dispatcherEntries workerEntries
  mem_holdings_of_dispatcher mem_holdings_of_worker workerStep_moves)

variable {n : Nat}

/-- The dispatcher is past its choice of a link for a job; `none` is a copy of redundant
mode that is still to be made. -/
inductive Dispatcher.Bound : Dispatcher n → Option (Job n) → Fin n → Prop where
  | reserving (job : Job n) (idx : Fin n) (fec : Bool) :
      Dispatcher.Bound (.reserving job idx fec) (some job) idx
  | holding (job : Job n) (idx : Fin n) (fec : Bool) :
      Dispatcher.Bound (.holding job idx fec) (some job) idx
  | raised (job : Job n) (idx : Fin n) : Dispatcher.Bound (.raised job idx) (some job) idx
  | copying {seq : UInt64} {plaintext : Bytes} {targets : List (Fin n)} {k : Fin n}
      (h : k ∈ targets) : Dispatcher.Bound (.copying seq plaintext targets) none k
  | copyRaised (job : Job n) (idx : Fin n) (targets : List (Fin n)) :
      Dispatcher.Bound (.copyRaised job idx targets) (some job) idx
  | copyRest {job : Job n} {idx : Fin n} {targets : List (Fin n)} {k : Fin n}
      (h : k ∈ targets) : Dispatcher.Bound (.copyRaised job idx targets) none k

inductive WorkerPc.Bound {i : Fin n} : WorkerPc n i → Job n → Fin n → Prop where
  | holding (job : Job n) (idx : Other n i) (rest : Rest n) :
      WorkerPc.Bound (.holding job idx rest) job idx
  | raised (job : Job n) (idx : Other n i) (rest : Rest n) :
      WorkerPc.Bound (.raised job idx rest) job idx

/-- Some task is past its choice. -/
inductive Bound (s : State n) : Option (Job n) → Fin n → Prop where
  | dispatcher {frame : Option (Job n)} {k : Fin n} (h : s.dispatcher.Bound frame k) :
      Bound s frame k
  | worker (i : Fin n) {job : Job n} {k : Fin n} (h : (s.workers i).pc.Bound job k) :
      Bound s (some job) k

/-- Some task will next try to reserve a slot of `k` in a spill. -/
inductive Trying (s : State n) : Job n → Fin n → Prop where
  | dispatcher {job : Job n} {fromLink : Fin n} {cand : Other n fromLink}
      {cands : List (Other n fromLink)} {fec : Bool}
      (h : s.dispatcher = .spilling job fromLink (.reserve cand cands) fec) : Trying s job cand
  | worker (i : Fin n) {job : Job n} {cand : Other n i} {cands : List (Other n i)} {rest : Rest n}
      (h : (s.workers i).pc = .rerouting job (.reserve cand cands) rest) : Trying s job cand

/-- The step is such an attempt. -/
inductive Tries (s : State n) : Action n → Job n → Fin n → Prop where
  | dispatcher {job : Job n} {fromLink : Fin n} {cand : Other n fromLink}
      {cands : List (Other n fromLink)} {fec : Bool} {env : Env}
      (h : s.dispatcher = .spilling job fromLink (.reserve cand cands) fec) :
      Tries s (.dispatcher env) job cand
  | worker {i : Fin n} {job : Job n} {cand : Other n i} {cands : List (Other n i)} {rest : Rest n}
      {env : Env} (h : (s.workers i).pc = .rerouting job (.reserve cand cands) rest) :
      Tries s (.worker i env) job cand

/-- The slot the dispatcher tries to reserve next, and for which job. -/
def Dispatcher.attempt : Dispatcher n → Option (Job n × Fin n)
  | .spilling job _ (.reserve cand _) _ => some (job, cand)
  | _ => none

def WorkerPc.attempt {i : Fin n} : WorkerPc n i → Option (Job n × Fin n)
  | .rerouting job (.reserve cand _) _ => some (job, cand)
  | _ => none

variable {s : State n} {a : Action n} {sh : Shared n} {sh' : Shared n} {job : Job n} {i : Fin n}
  {k : Fin n} {fromLink : Fin n} {env : Env} {fec : Bool}

theorem Tries.trying (h : Tries s a job k) : Trying s job k := by
  cases h with
  | dispatcher h => exact .dispatcher h
  | worker h => exact .worker _ h

/-- The job a task is past its choice for is one of the system's. -/
theorem Bound.mem_holdings (h : Bound s (some job) k) : ∃ p, (p, job) ∈ holdings s := by
  cases h with
  | dispatcher h =>
    cases hd : s.dispatcher <;> rw [hd] at h <;> cases h
    case copyRaised.copyRaised targets =>
      exact ⟨.copying, mem_holdings_of_dispatcher (by simp [hd, dispatcherEntries])⟩
    all_goals exact ⟨.dispatcher, mem_holdings_of_dispatcher (by simp [hd, dispatcherEntries])⟩
  | worker i h =>
    cases hpc : (s.workers i).pc <;> rw [hpc] at h <;> cases h
    all_goals exact ⟨.rerouting i, mem_holdings_of_worker i (by simp [hpc, workerEntries])⟩

theorem Trying.mem_holdings (h : Trying s job k) : ∃ p, (p, job) ∈ holdings s := by
  cases h with
  | dispatcher h => exact ⟨.dispatcher, mem_holdings_of_dispatcher (by simp [h, dispatcherEntries])⟩
  | worker i h => exact ⟨.rerouting i, mem_holdings_of_worker i (by simp [h, workerEntries])⟩

/-! ## The jobs of a queue -/

variable {sh'' : Shared n} {plaintext : Bytes} {next : Nat} {up any : List (Fin n)}
  (batch : List (Job n)) {frame : Option (Job n)} {q q' : LinkTx n} {pc : Spill n fromLink}
  {out : Spilled n fromLink} {cand : Other n fromLink} {cands : List (Other n fromLink)}

theorem jobs_setQueue (h : q.jobs = (sh.queues i).jobs) (k : Fin n) :
    ((sh.setQueue i q).queues k).jobs = (sh.queues k).jobs := by
  by_cases hk : k = i
  · subst hk
    simp only [Shared.setQueue, Function.update_self, h]
  · simp only [Shared.setQueue, Function.update_of_ne hk]

theorem jobs_count (sh : Shared n) (i : Fin n) (f : TxCounters → TxCounters) (k : Fin n) :
    ((sh.count i f).queues k).jobs = (sh.queues k).jobs :=
  jobs_setQueue (q := (sh.queues i).count f) rfl k

theorem jobs_spill (h : pc.Moves sh sh' out) (k : Fin n) :
    (sh'.queues k).jobs = (sh.queues k).jobs := by
  cases h with
  | goesOn hfit => rfl
  | fails => rfl
  | takes hq => exact (jobs_count _ _ _ k).trans (jobs_setQueue (tryReserve_ok hq).1 k)

/-- A hand-over reaches the queue it is for, if the slot is still there. -/
theorem jobs_handOver (sh : Shared n) (i : Fin n) (job : Job n) (k : Fin n) :
    ((sh.handOver i job).queues k).jobs = (sh.queues k).jobs ∨
      i = k ∧ ((sh.handOver i job).queues k).jobs = (sh.queues k).jobs ++ [job.place k] := by
  by_cases hk : k = i
  · subst hk
    have hqueue : (sh.handOver k job).queues k = (sh.queues k).send (job.place k) :=
      Function.update_self ..
    rw [hqueue, LinkTx.send]
    split
    · exact .inr ⟨rfl, rfl⟩
    · exact .inl rfl
  · have hqueue : (sh.handOver i job).queues k = sh.queues k := Function.update_of_ne hk ..
    exact .inl (by rw [hqueue])

theorem dispatcherStep_jobs (s : State n) (env : Env) (k : Fin n) :
    ((s.dispatcherStep env).shared.queues k).jobs = (s.shared.queues k).jobs ∨
      ∃ job, s.dispatcher.Bound (some job) k ∧
        ((s.dispatcherStep env).shared.queues k).jobs =
          (s.shared.queues k).jobs ++ [job.place k] := by
  obtain ⟨sh', d', hstep, hmove⟩ := s.dispatcherStep_eq env
  rw [hstep]
  obtain ⟨sh, d, ws⟩ := s
  cases hmove with
  | reserves hq => exact .inl (jobs_setQueue (tryReserve_ok hq).1 k)
  | overflows hspill hq => exact .inl (jobs_count _ _ _ k)
  | drops hq => exact .inl (jobs_count _ _ _ k)
  | spills hpc => exact .inl (jobs_spill hpc k)
  | spilled hpc => exact .inl (jobs_spill hpc k)
  | givesUp hpc => exact .inl (jobs_spill hpc k)
  | raises => exact .inl (jobs_count _ _ _ k)
  | @handsOver job idx =>
    rcases jobs_handOver sh idx job k with hsame | ⟨rfl, hpush⟩
    · exact .inl hsame
    · exact .inr ⟨job, .raised job idx, hpush⟩
  | copies => exact .inl (jobs_count _ _ _ k)
  | @enqueues job idx targets q hq =>
    by_cases hk : k = idx
    · subst hk
      refine .inr ⟨job, .copyRaised job k targets, ?_⟩
      simp only [State.setDispatcher, Shared.setQueue, Function.update_self]
      exact (trySend_ok hq).1
    · refine .inl ?_
      simp only [State.setDispatcher, Shared.setQueue, Function.update_of_ne hk]
  | undoes f hf => exact .inl (jobs_count _ _ _ k)
  | _ => exact .inl rfl

theorem goOn_self {pc : WorkerPc n i} : ((s.goOn sh i pc).workers i).pc = pc := by
  simp only [State.goOn, State.setWorker, Function.update_self]

theorem sendFailed_jobs (s : State n) (i : Fin n) (job : Job n) (rest : Rest n) (k : Fin n) :
    ((s.sendFailed i job rest).shared.queues k).jobs = (s.shared.queues k).jobs := by
  simp only [State.sendFailed]
  split <;> exact jobs_count _ _ _ k

theorem workerStep_jobs (s : State n) (i : Fin n) (env : Env) (k : Fin n) :
    ((s.workerStep i env).shared.queues k).jobs <:+ (s.shared.queues k).jobs ∨
      ∃ job, (s.workers i).pc.Bound job k ∧
        ((s.workerStep i env).shared.queues k).jobs =
          (s.shared.queues k).jobs ++ [job.place k] := by
  have hsame : ∀ {jobs jobs' : List (Job n)}, jobs' = jobs → jobs' <:+ jobs := by
    rintro jobs jobs' rfl
    exact List.suffix_refl jobs'
  have hmove := workerStep_moves s i env
  generalize s.workerStep i env = s' at hmove ⊢
  cases hmove with
  | fetches hpc hm hsome =>
    refine .inl ?_
    by_cases hk : k = i
    · subst hk
      simp only [State.setWorker, Shared.setQueue, Function.update_self, LinkTx.recvMany]
      exact List.drop_suffix _ _
    · simp only [State.setWorker, Shared.setQueue, Function.update_of_ne hk]
      exact List.suffix_refl _
  | finishes active hpc hjobs => exact .inl (hsame (jobs_count _ _ _ k))
  | fails hpc hjobs => exact .inl (hsame (sendFailed_jobs _ _ _ _ k))
  | spills hpc hmove => exact .inl (hsame (jobs_spill hmove k))
  | spilled hpc hmove => exact .inl (hsame (jobs_spill hmove k))
  | givesUp hpc hmove => exact .inl (hsame (jobs_spill hmove k))
  | raises hpc => exact .inl (hsame (jobs_count _ _ _ k))
  | @handsOver job rest idx hpc =>
    rcases jobs_handOver s.shared idx.1 job k with hqueue | ⟨rfl, hpush⟩
    · exact .inl (hsame hqueue)
    · exact .inr ⟨job, hpc ▸ .raised job idx rest, hpush⟩
  | _ => exact .inl (List.suffix_refl _)

/-- A queue only shrinks, from its front, unless it takes a frame bound for it. -/
theorem step_jobs (s : State n) (a : Action n) (k : Fin n) :
    ((s.step a).shared.queues k).jobs <:+ (s.shared.queues k).jobs ∨
      ∃ job, Bound s (some job) k ∧
        ((s.step a).shared.queues k).jobs = (s.shared.queues k).jobs ++ [job.place k] := by
  have hoffer : ∀ (sh : Shared n) job forced fec, sh.queues = s.shared.queues →
      ((s.offer sh job forced fec).shared.queues k).jobs <:+ (s.shared.queues k).jobs := by
    intro sh job forced fec hqueues
    rw [show (s.offer sh job forced fec).shared.queues = sh.queues from rfl, hqueues]
  cases a with
  | setLink i view => exact .inl (List.suffix_refl _)
  | setDelivery i ppm =>
    refine .inl ?_
    rw [show ((s.step (.setDelivery i ppm)).shared.queues k).jobs = _ from jobs_count _ _ _ k]
  | overflow => exact .inl (List.suffix_refl _)
  | dispatch ptype plaintext forced now =>
    refine .inl ?_
    simp only [State.step]
    split
    · exact hoffer _ _ _ _ rfl
    · exact List.suffix_refl _
  | dispatchFec plaintext now =>
    refine .inl ?_
    simp only [State.step]
    split
    · exact hoffer _ _ _ _ rfl
    · exact List.suffix_refl _
  | sendRedundant plaintext =>
    refine .inl ?_
    simp only [State.step]
    split <;> exact List.suffix_refl _
  | dispatcher env =>
    rcases dispatcherStep_jobs s env k with hsame | ⟨job, hbound, hpush⟩
    · refine .inl ?_
      rw [show ((s.step (.dispatcher env)).shared.queues k).jobs = _ from hsame]
    · exact .inr ⟨job, .dispatcher hbound, hpush⟩
  | worker i env =>
    rcases workerStep_jobs s i env k with hsuffix | ⟨job, hbound, hpush⟩
    · exact .inl hsuffix
    · exact .inr ⟨job, .worker i hbound, hpush⟩

/-! ## How a frame becomes bound -/

/-- What a task was bound with before a step and after it: the same job, or a copy that
has now been made. -/
def Continues (before after : Option (Job n)) : Prop :=
  before = none ∨ ∃ job job', before = some job ∧ after = some job' ∧
    job'.ptype = job.ptype ∧ job'.id = job.id

theorem Continues.refl (frame : Option (Job n)) : Continues frame frame := by
  cases frame with
  | none => exact .inl rfl
  | some job => exact .inr ⟨job, job, rfl, rfl, rfl, rfl⟩

/-- The step chooses link `k`. -/
inductive Binds (s : State n) (a : Action n) : Option (Job n) → Fin n → Prop where
  | forced {job : Job n} {k : Fin n} {fec : Bool}
      (h : s.dispatcher = .offered job (some k) fec) (husable : s.shared.usable k = true) :
      Binds s a (some job) k
  | picked {job : Job n} {k : Fin n} {fec : Bool} {env : Env} (h : s.dispatcher = .picking job fec)
      (ha : a = .dispatcher env) (hpicked : env.picked = some k.1) : Binds s a (some job) k
  | spilled {job : Job n} {k : Fin n} {q : LinkTx n} (h : Tries s a job k)
      (hq : (s.shared.queues k).tryReserve = .ok q) : Binds s a (some job) k
  | copied {plaintext : Bytes} {next : Nat} {up any : List (Fin n)} {k : Fin n}
      (h : s.dispatcher = .collecting plaintext next up any) (hnext : n ≤ next)
      (hk : k ∈ State.redundantTargets up any) : Binds s a none k

theorem spill_reserved (h : pc.Moves sh sh' (.reserved cand)) :
    ∃ cands q, pc = .reserve cand cands ∧ (sh.queues cand).tryReserve = .ok q := by
  cases h with
  | takes hq => exact ⟨_, _, rfl, hq⟩

/-- A spill tries only links it found fit. -/
theorem spill_more_reserve (h : pc.Moves sh sh' (.more (.reserve cand cands))) :
    sh.unfit cand = false := by
  cases h with
  | goesOn hfit => exact hfit cand cands rfl

theorem dispatcherStep_moves (s : State n) (env : Env) :
    ∃ sh, s.dispatcher.Moves env s.shared sh (s.dispatcherStep env).dispatcher := by
  obtain ⟨sh, d, hstep, hmove⟩ := s.dispatcherStep_eq env
  rw [hstep]
  exact ⟨sh, hmove⟩

theorem dispatcherStep_bound (h : (s.dispatcherStep env).dispatcher.Bound frame k) :
    (∃ frame', s.dispatcher.Bound frame' k ∧ Continues frame' frame) ∨
      Binds s (.dispatcher env) frame k := by
  obtain ⟨sh', hmove⟩ := dispatcherStep_moves s env
  obtain ⟨sh, d, ws⟩ := s
  generalize (State.dispatcherStep _ env).dispatcher = d' at h hmove
  cases hmove with
  | forced husable =>
    cases h
    exact .inr (.forced rfl husable)
  | picks idx hpicked =>
    cases h
    exact .inr (.picked rfl rfl hpicked)
  | reserves hq =>
    cases h
    exact .inl ⟨_, .reserving _ _ _, .refl _⟩
  | spilled hpc =>
    cases h
    obtain ⟨cands, q, rfl, hq⟩ := spill_reserved hpc
    exact .inr (.spilled (.dispatcher rfl) hq)
  | @joins job idx =>
    cases h
    exact .inl ⟨_, .holding job _ true, .inr ⟨job, _, rfl, rfl, rfl, rfl⟩⟩
  | @raises job idx =>
    cases h
    exact .inl ⟨_, .holding job _ false, .inr ⟨job, _, rfl, rfl, rfl, rfl⟩⟩
  | numbers hnext =>
    cases h with
    | copying hk => exact .inr (.copied rfl hnext hk)
  | copies =>
    cases h with
    | copyRaised => exact .inl ⟨none, .copying (List.mem_cons_self ..), .inl rfl⟩
    | copyRest hk => exact .inl ⟨none, .copying (List.mem_cons_of_mem _ hk), .inl rfl⟩
  | enqueues hq =>
    cases h with
    | copying hk => exact .inl ⟨none, .copyRest hk, .inl rfl⟩
  | undoes f hf =>
    cases h with
    | copying hk => exact .inl ⟨none, .copyRest hk, .inl rfl⟩
  | _ => exact nomatch h

theorem dispatcherStep_trying
    (h : (s.dispatcherStep env).dispatcher = .spilling job fromLink (.reserve cand cands) fec) :
    s.shared.unfit cand = false := by
  obtain ⟨sh', hmove⟩ := dispatcherStep_moves s env
  rw [h] at hmove
  generalize s.dispatcher = d at hmove
  cases hmove with
  | spills hpc => exact spill_more_reserve hpc

/-! ## The same for workers -/

/-- A worker's step leaves the dispatcher and the other workers where they are. -/
structure WorkerOnly (s s' : State n) (i : Fin n) : Prop where
  dispatcher : s'.dispatcher = s.dispatcher
  others : ∀ j, j ≠ i → s'.workers j = s.workers j

theorem workerOnly_refl (s : State n) (i : Fin n) : WorkerOnly s s i := ⟨rfl, fun _ _ => rfl⟩

theorem workerOnly_setWorker (s : State n) (sh : Shared n) (i : Fin n) (w : Worker n i) :
    WorkerOnly s (s.setWorker sh i w) i :=
  ⟨rfl, fun _ hj => Function.update_of_ne hj ..⟩

theorem workerOnly_sendFailed (s : State n) (i : Fin n) (job : Job n) (rest : Rest n) :
    WorkerOnly s (s.sendFailed i job rest) i := by
  simp only [State.sendFailed]
  split <;> exact workerOnly_setWorker ..

theorem workerStep_only (s : State n) (i : Fin n) (env : Env) :
    WorkerOnly s (s.workerStep i env) i := by
  have hmove := workerStep_moves s i env
  generalize s.workerStep i env = s' at hmove ⊢
  cases hmove with
  | rests hpc => exact workerOnly_refl s i
  | fails hpc hjobs => exact workerOnly_sendFailed ..
  | _ => exact workerOnly_setWorker ..

/-- The worker is neither past a choice nor about to make one. -/
structure WorkerPc.Free {i : Fin n} (pc : WorkerPc n i) : Prop where
  bound : ∀ job k, ¬pc.Bound job k
  trying : ∀ job cand cands rest, pc ≠ .rerouting job (.reserve cand cands) rest

theorem WorkerPc.free_waiting : (WorkerPc.waiting : WorkerPc n i).Free :=
  ⟨fun _ _ h => (nomatch h), fun _ _ _ _ h => (nomatch h)⟩

theorem WorkerPc.free_fetched : (WorkerPc.fetched batch : WorkerPc n i).Free :=
  ⟨fun _ _ h => (nomatch h), fun _ _ _ _ h => (nomatch h)⟩

theorem WorkerPc.free_batched : (WorkerPc.batched batch : WorkerPc n i).Free :=
  ⟨fun _ _ h => (nomatch h), fun _ _ _ _ h => (nomatch h)⟩

theorem WorkerPc.free_running (rest : Rest n) : (WorkerPc.running rest : WorkerPc n i).Free :=
  ⟨fun _ _ h => (nomatch h), fun _ _ _ _ h => (nomatch h)⟩

theorem free_sendFailed (s : State n) (i : Fin n) (job : Job n) (rest : Rest n) :
    ((s.sendFailed i job rest).workers i).pc.Free := by
  simp only [State.sendFailed]
  split
  · rw [goOn_self]
    exact WorkerPc.free_running rest
  · rw [goOn_self]
    exact ⟨fun _ _ h => (nomatch h), fun _ _ _ _ h => (nomatch h)⟩

theorem free_finishBatch (s : State n) (i : Fin n) (active : Bool) :
    ((s.finishBatch i active).workers i).pc.Free := by
  simp only [State.finishBatch, State.setWorker, Function.update_self]
  exact WorkerPc.free_waiting

theorem free_goOn {pc : WorkerPc n i} (h : pc.Free) : ((s.goOn sh i pc).workers i).pc.Free := by
  rwa [goOn_self]

/-- What a worker may come to from `s`: it binds a job only to the slot its spill has
reserved, and tries only links it found fit. -/
structure WorkerBinds (s : State n) {i : Fin n} (pc : WorkerPc n i) : Prop where
  bound : ∀ job k, pc.Bound job k →
    (∃ job', (s.workers i).pc.Bound job' k ∧ Continues (some job') (some job)) ∨
      (∀ env, Tries s (.worker i env) job k) ∧ ∃ q, (s.shared.queues k).tryReserve = .ok q
  trying : ∀ job cand cands rest, pc = .rerouting job (.reserve cand cands) rest →
    s.shared.unfit cand = false

theorem WorkerPc.Free.binds {pc : WorkerPc n i} (h : pc.Free) : WorkerBinds s pc :=
  ⟨fun job k hbound => absurd hbound (h.bound job k),
    fun job cand cands rest heq => absurd heq (h.trying job cand cands rest)⟩

theorem workerStep_binds (s : State n) (i : Fin n) (env : Env) :
    WorkerBinds s ((s.workerStep i env).workers i).pc := by
  have hmove := workerStep_moves s i env
  generalize s.workerStep i env = s' at hmove ⊢
  cases hmove with
  | rests hpc =>
    rcases hpc with hpc | ⟨batch, hpc⟩
    · exact hpc ▸ WorkerPc.free_waiting.binds
    · exact hpc ▸ (WorkerPc.free_batched batch).binds
  | fetches hpc hm hsome =>
    simp only [State.setWorker, Function.update_self]
    exact (WorkerPc.free_fetched _).binds
  | batches hpc => exact (free_goOn (WorkerPc.free_batched _)).binds
  | finishes active hpc hjobs => exact (free_finishBatch ..).binds
  | fails hpc hjobs => exact (free_sendFailed ..).binds
  | spills hpc hmove =>
    simp only [goOn_self]
    refine ⟨fun _ _ h => (nomatch h), fun job cand cands rest' heq => ?_⟩
    cases heq
    exact spill_more_reserve hmove
  | spilled hpc hmove =>
    simp only [goOn_self]
    refine ⟨fun job k h => ?_, fun _ _ _ _ h => (nomatch h)⟩
    cases h
    obtain ⟨cands, q, rfl, hq⟩ := spill_reserved hmove
    exact .inr ⟨fun env => .worker hpc, q, hq⟩
  | @raises job' rest idx hpc =>
    simp only [goOn_self]
    refine ⟨fun job k h => ?_, fun _ _ _ _ h => (nomatch h)⟩
    cases h
    exact .inl ⟨job', hpc ▸ .holding job' idx rest, .inr ⟨job', _, rfl, rfl, rfl, rfl⟩⟩
  | _ => exact (free_goOn (WorkerPc.free_running _)).binds

/-! ## Steps of the system -/

theorem dispatcherStep_workers (s : State n) (env : Env) :
    (s.dispatcherStep env).workers = s.workers := by
  obtain ⟨sh, d, hstep, -⟩ := s.dispatcherStep_eq env
  rw [hstep]
  rfl

/-- What a step does not touch of the tasks: all of them, the workers, or all but one. -/
theorem step_tasks (s : State n) (a : Action n) :
    (∃ env, a = .dispatcher env ∧ (s.step a).workers = s.workers) ∨
    (∃ i env, a = .worker i env ∧ WorkerOnly s (s.step a) i) ∨
    (s.step a).workers = s.workers ∧
      ((s.step a).dispatcher = s.dispatcher ∨
        (∃ job forced fec, (s.step a).dispatcher = .offered job forced fec) ∨
        ∃ plaintext, (s.step a).dispatcher = .collecting plaintext 0 [] []) := by
  cases a with
  | setLink i view => exact .inr (.inr ⟨rfl, .inl rfl⟩)
  | setDelivery i ppm => exact .inr (.inr ⟨rfl, .inl rfl⟩)
  | overflow => exact .inr (.inr ⟨rfl, .inl rfl⟩)
  | dispatch ptype plaintext forced now =>
    simp only [State.step]
    split
    · exact .inr (.inr ⟨rfl, .inr (.inl ⟨_, _, _, rfl⟩)⟩)
    · exact .inr (.inr ⟨rfl, .inl rfl⟩)
  | dispatchFec plaintext now =>
    simp only [State.step]
    split
    · exact .inr (.inr ⟨rfl, .inr (.inl ⟨_, _, _, rfl⟩)⟩)
    · exact .inr (.inr ⟨rfl, .inl rfl⟩)
  | sendRedundant plaintext =>
    simp only [State.step]
    split
    · exact .inr (.inr ⟨rfl, .inr (.inr ⟨plaintext, rfl⟩)⟩)
    · exact .inr (.inr ⟨rfl, .inl rfl⟩)
  | dispatcher env => exact .inl ⟨env, rfl, dispatcherStep_workers s env⟩
  | worker i env => exact .inr (.inl ⟨i, env, rfl, workerStep_only s i env⟩)

/-- A frame is bound because it was before, or because the step chose its link. -/
theorem step_bound (h : Bound (s.step a) frame k) :
    (∃ frame', Bound s frame' k ∧ Continues frame' frame) ∨ Binds s a frame k := by
  rcases step_tasks s a with ⟨env, rfl, hworkers⟩ | ⟨i, env, rfl, honly⟩ | ⟨hworkers, hdispatcher⟩
  · cases h with
    | dispatcher hbound =>
      rcases dispatcherStep_bound hbound with ⟨frame', hbefore, hcont⟩ | hbinds
      · exact .inl ⟨frame', .dispatcher hbefore, hcont⟩
      · exact .inr hbinds
    | worker i hbound =>
      rw [hworkers] at hbound
      exact .inl ⟨_, .worker i hbound, .refl _⟩
  · cases h with
    | dispatcher hbound =>
      rw [honly.dispatcher] at hbound
      exact .inl ⟨frame, .dispatcher hbound, .refl _⟩
    | @worker j job _ hbound =>
      by_cases hj : j = i
      · subst hj
        rcases (workerStep_binds s j env).bound job k hbound with ⟨job', hbefore, hcont⟩ |
          ⟨htries, q, hq⟩
        · exact .inl ⟨_, .worker j hbefore, hcont⟩
        · exact .inr (.spilled (htries env) hq)
      · rw [honly.others j hj] at hbound
        exact .inl ⟨_, .worker j hbound, .refl _⟩
  · cases h with
    | dispatcher hbound =>
      rcases hdispatcher with hsame | ⟨job, forced, fec, hoffered⟩ | ⟨plaintext, hcollecting⟩
      · rw [hsame] at hbound
        exact .inl ⟨frame, .dispatcher hbound, .refl _⟩
      · rw [hoffered] at hbound
        exact nomatch hbound
      · rw [hcollecting] at hbound
        exact nomatch hbound
    | worker i hbound =>
      rw [hworkers] at hbound
      exact .inl ⟨_, .worker i hbound, .refl _⟩

/-- A spill tries only links found fit. -/
theorem step_trying (h : Trying (s.step a) job k) : Trying s job k ∨ s.shared.unfit k = false := by
  rcases step_tasks s a with ⟨env, rfl, hworkers⟩ | ⟨i, env, rfl, honly⟩ | ⟨hworkers, hdispatcher⟩
  · cases h with
    | dispatcher htry => exact .inr (dispatcherStep_trying htry)
    | worker i htry =>
      rw [hworkers] at htry
      exact .inl (.worker i htry)
  · cases h with
    | dispatcher htry =>
      rw [honly.dispatcher] at htry
      exact .inl (.dispatcher htry)
    | worker j htry =>
      by_cases hj : j = i
      · subst hj
        exact .inr ((workerStep_binds s j env).trying _ _ _ _ htry)
      · rw [honly.others j hj] at htry
        exact .inl (.worker j htry)
  · cases h with
    | dispatcher htry =>
      rcases hdispatcher with hsame | ⟨job, forced, fec, hoffered⟩ | ⟨plaintext, hcollecting⟩
      · rw [hsame] at htry
        exact .inl (.dispatcher htry)
      · rw [hoffered] at htry
        exact nomatch htry
      · rw [hcollecting] at htry
        exact nomatch htry
    | worker i htry =>
      rw [hworkers] at htry
      exact .inl (.worker i htry)

/-! ## What a step leaves alone -/

/-- Neither the mode nor which queues are closed. -/
structure Kept (sh sh' : Shared n) : Prop where
  allowSpill : sh'.allowSpill = sh.allowSpill
  closed : ∀ k, (sh'.queues k).closed = (sh.queues k).closed

/-- Nor the links, the jobs taken up or those refused. -/
structure Frame (sh sh' : Shared n) : Prop extends Kept sh sh' where
  links : sh'.links = sh.links
  offered : sh'.offered = sh.offered
  refused : sh'.refused = sh.refused

theorem Frame.refl (sh : Shared n) : Frame sh sh := ⟨⟨rfl, fun _ => rfl⟩, rfl, rfl, rfl⟩

theorem Kept.trans (h : Kept sh sh') (h' : Kept sh' sh'') : Kept sh sh'' :=
  ⟨h'.allowSpill.trans h.allowSpill, fun k => (h'.closed k).trans (h.closed k)⟩

theorem Frame.trans (h : Frame sh sh') (h' : Frame sh' sh'') :
    Frame sh sh'' where
  toKept := h.toKept.trans h'.toKept
  links := h'.links.trans h.links
  offered := h'.offered.trans h.offered
  refused := h'.refused.trans h.refused

theorem frame_setQueue (h : q.closed = (sh.queues i).closed) :
    Frame sh (sh.setQueue i q) where
  allowSpill := rfl
  closed := by
    intro k
    by_cases hk : k = i
    · subst hk
      simp only [Shared.setQueue, Function.update_self, h]
    · simp only [Shared.setQueue, Function.update_of_ne hk]
  links := rfl
  offered := rfl
  refused := rfl

theorem frame_count (sh : Shared n) (i : Fin n) (f : TxCounters → TxCounters) :
    Frame sh (sh.count i f) :=
  frame_setQueue rfl

theorem frame_dropJob (sh : Shared n) (job : Job n) : Frame sh (sh.dropJob job) :=
  ⟨⟨rfl, fun _ => rfl⟩, rfl, rfl, rfl⟩

theorem frame_noteSent (sh : Shared n) (i : Fin n) (job : Job n) (carried : Bool) :
    Frame sh (State.noteSent sh i job carried) :=
  ⟨⟨rfl, fun _ => rfl⟩, rfl, rfl, rfl⟩

theorem closed_of_tryReserve (h : q.tryReserve = .ok q') : q'.closed = q.closed := by
  obtain ⟨-, -, rfl⟩ := LinkTx.tryReserve_eq_ok h
  rfl

theorem closed_of_trySend (h : q.trySend job = .ok q') : q'.closed = q.closed := by
  obtain ⟨-, rfl⟩ := LinkTx.trySend_eq_ok h
  rfl

theorem frame_handOver (sh : Shared n) (i : Fin n) (job : Job n) :
    Frame sh (sh.handOver i job) := by
  refine frame_setQueue ?_
  unfold LinkTx.send
  split <;> rfl

theorem spill_frame (h : pc.Moves sh sh' out) : Frame sh sh' := by
  cases h with
  | goesOn hfit => exact Frame.refl sh
  | fails => exact Frame.refl sh
  | takes hq => exact (frame_setQueue (closed_of_tryReserve hq)).trans (frame_count _ _ _)

/-- `outbound_sender` is in `send_redundant`. -/
def Dispatcher.copies : Dispatcher n → Bool
  | .collecting _ _ _ _ => true
  | .copying _ _ _ => true
  | .copyRaised _ _ _ => true
  | _ => false

theorem place_of_mem_dispatcherEntries {d : Dispatcher n} {e : Entry n}
    (h : e ∈ dispatcherEntries d) : e.1 = .dispatcher ∨ e.1 = .copying ∧ d.copies = true := by
  cases d with
  | idle => exact absurd h (Multiset.notMem_zero e)
  | collecting plaintext next up any => exact absurd h (Multiset.notMem_zero e)
  | copying seq plaintext targets => exact absurd h (Multiset.notMem_zero e)
  | copyRaised job idx targets =>
    have he := Multiset.mem_singleton.1 h
    exact .inr ⟨by rw [he], rfl⟩
  | _ =>
    have he := Multiset.mem_singleton.1 h
    exact .inl (by rw [he])

theorem Bound.copies (h : Bound s none k) : s.dispatcher.copies = true := by
  cases h with
  | dispatcher h =>
    cases hd : s.dispatcher with
    | copying seq plaintext targets => rfl
    | copyRaised job idx targets => rfl
    | _ =>
      rw [hd] at h
      exact nomatch h

/-- What the dispatcher does besides moving its job: outside `send_redundant` it refuses
a job that no link was picked for. -/
theorem dispatcherStep_shared (s : State n) (env : Env) :
    Frame s.shared (s.dispatcherStep env).shared ∨
      (∃ job fec, s.dispatcher = .picking job fec ∧ (∀ idx, env.picked = some idx → ¬idx < n) ∧
        (s.dispatcherStep env).shared = s.shared.refuse job) ∨
      s.dispatcher.copies = true ∧ Kept s.shared (s.dispatcherStep env).shared ∧
        (s.dispatcherStep env).shared.links = s.shared.links := by
  obtain ⟨sh', d', hstep, hmove⟩ := s.dispatcherStep_eq env
  rw [hstep]
  obtain ⟨sh, d, ws⟩ := s
  cases hmove with
  | refuses hpicked => exact .inr (.inl ⟨_, _, rfl, hpicked, rfl⟩)
  | reserves hq => exact .inl (frame_setQueue (closed_of_tryReserve hq))
  | overflows hspill hq => exact .inl (frame_count _ _ _)
  | drops hq => exact .inl ((frame_count _ _ _).trans (frame_dropJob _ _))
  | spills hpc => exact .inl (spill_frame hpc)
  | spilled hpc => exact .inl (spill_frame hpc)
  | givesUp hpc => exact .inl ((spill_frame hpc).trans (frame_dropJob _ _))
  | joins => exact .inl ⟨⟨rfl, fun _ => rfl⟩, rfl, rfl, rfl⟩
  | raises => exact .inl (frame_count _ _ _)
  | handsOver => exact .inl (frame_handOver sh _ _)
  | numbers hnext => exact .inl ⟨⟨rfl, fun _ => rfl⟩, rfl, rfl, rfl⟩
  | @copies seq plaintext idx targets =>
    have hframe := frame_count { sh with offered := sh.offered + 1 } idx
      fun c => { c with depth := c.depth + 1 }
    exact .inr (.inr ⟨rfl, ⟨hframe.allowSpill, hframe.closed⟩, hframe.links⟩)
  | enqueues hq => exact .inl (frame_setQueue (closed_of_trySend hq))
  | @undoes job idx targets f hf =>
    have hframe := frame_count (sh.refuse job) idx f
    exact .inr (.inr ⟨rfl, ⟨hframe.allowSpill, hframe.closed⟩, hframe.links⟩)
  | _ => exact .inl (Frame.refl sh)

theorem frame_sendFailed (s : State n) (i : Fin n) (job : Job n) (rest : Rest n) :
    Frame s.shared (s.sendFailed i job rest).shared := by
  simp only [State.sendFailed]
  split
  · exact (frame_count _ _ _).trans (frame_dropJob _ _)
  · exact frame_count _ _ _

theorem workerStep_frame (s : State n) (i : Fin n) (env : Env) :
    Frame s.shared (s.workerStep i env).shared := by
  have hmove := workerStep_moves s i env
  generalize s.workerStep i env = s' at hmove ⊢
  cases hmove with
  | fetches hpc hm hsome => exact frame_setQueue rfl
  | finishes active hpc hjobs => exact frame_count _ _ _
  | sends hpc hjobs => exact frame_noteSent _ _ _ _
  | fails hpc hjobs => exact frame_sendFailed ..
  | spills hpc hmove => exact spill_frame hmove
  | spilled hpc hmove => exact spill_frame hmove
  | givesUp hpc hmove => exact (spill_frame hmove).trans (frame_dropJob _ _)
  | raises hpc => exact frame_count _ _ _
  | handsOver hpc => exact frame_handOver _ _ _
  | _ => exact Frame.refl _

/-- The jobs that are new after a step, outside `send_redundant`. -/
def Taken (s s' : State n) : Prop :=
  s'.shared.offered = s.shared.offered ∨
    ∃ e ∈ dispatcherEntries s'.dispatcher, e.2.id = s.shared.offered ∧ e.2.placed = []

/-- What a step changes that neither the dispatcher nor a worker takes. -/
structure Outside (s : State n) (a : Action n) : Prop where
  kept : Kept s.shared (s.step a).shared
  refused : (s.step a).shared.refused = s.shared.refused
  links : (s.step a).shared.links = s.shared.links ∨ ∃ i view, a = .setLink i view ∧
    (s.step a).shared.links = Function.update s.shared.links i view
  taken : Taken s (s.step a)

theorem Outside.of_same (h : s.step a = s) : Outside s a := by
  refine { kept := ?_, refused := ?_, links := .inl ?_, taken := .inl ?_ } <;> rw [h]
  exact ⟨rfl, fun _ => rfl⟩

theorem Outside.of_offer {job : TxJob} {forced : Option Nat}
    (h : s.step a = s.offer sh job forced fec) (hframe : Frame s.shared sh) : Outside s a where
  kept := by
    rw [h]
    exact ⟨hframe.allowSpill, hframe.closed⟩
  refused := by
    rw [h]
    exact hframe.refused
  links := by
    rw [h]
    exact .inl hframe.links
  taken := by
    rw [h]
    exact .inr ⟨_, Multiset.mem_singleton_self _, hframe.offered, rfl⟩

theorem step_outside (s : State n) (a : Action n) :
    (∃ env, a = .dispatcher env) ∨ (∃ i env, a = .worker i env) ∨ Outside s a := by
  cases a with
  | setLink i view =>
    exact .inr (.inr ⟨⟨rfl, fun _ => rfl⟩, rfl, .inr ⟨i, view, rfl, rfl⟩, .inl rfl⟩)
  | setDelivery i ppm =>
    exact .inr (.inr ⟨(frame_count _ _ _).toKept, rfl, .inl rfl, .inl rfl⟩)
  | overflow => exact .inr (.inr ⟨⟨rfl, fun _ => rfl⟩, rfl, .inl rfl, .inl rfl⟩)
  | dispatch ptype plaintext forced now =>
    refine .inr (.inr ?_)
    cases hidle : s.dispatcher with
    | idle =>
      refine Outside.of_offer (by simp only [State.step, hidle]; rfl) ?_
      exact ⟨⟨rfl, fun _ => rfl⟩, rfl, rfl, rfl⟩
    | _ => exact Outside.of_same (by simp only [State.step, hidle])
  | dispatchFec plaintext now =>
    refine .inr (.inr ?_)
    cases hidle : s.dispatcher with
    | idle => exact Outside.of_offer (by simp only [State.step, hidle]; rfl) (Frame.refl _)
    | _ => exact Outside.of_same (by simp only [State.step, hidle])
  | sendRedundant plaintext =>
    have hshared : (s.step (.sendRedundant plaintext)).shared = s.shared := by
      simp only [State.step]
      split <;> rfl
    refine .inr (.inr ?_)
    refine { kept := ?_, refused := ?_, links := .inl ?_, taken := .inl ?_ } <;> rw [hshared]
    exact ⟨rfl, fun _ => rfl⟩
  | dispatcher env => exact .inl ⟨env, rfl⟩
  | worker i env => exact .inr (.inl ⟨i, env, rfl⟩)

/-- The mode and the closed queues are those of the start, whatever the step. -/
theorem step_kept (s : State n) (a : Action n) : Kept s.shared (s.step a).shared := by
  rcases step_outside s a with ⟨env, rfl⟩ | ⟨i, env, rfl⟩ | houtside
  · rcases dispatcherStep_shared s env with hframe | ⟨job, fec, -, -, hrefuse⟩ | ⟨-, hkept, -⟩
    · exact hframe.toKept
    · exact hrefuse ▸ ⟨rfl, fun _ => rfl⟩
    · exact hkept
  · exact (workerStep_frame s i env).toKept
  · exact houtside.kept

/-- The links change only by other tasks. -/
theorem step_links (s : State n) (a : Action n) :
    (s.step a).shared.links = s.shared.links ∨
      ∃ i view, a = .setLink i view ∧
        (s.step a).shared.links = Function.update s.shared.links i view := by
  rcases step_outside s a with ⟨env, rfl⟩ | ⟨i, env, rfl⟩ | houtside
  · rcases dispatcherStep_shared s env with hframe | ⟨job, fec, -, -, hrefuse⟩ | ⟨-, -, hlinks⟩
    · exact .inl hframe.links
    · exact .inl (hrefuse ▸ rfl)
    · exact .inl hlinks
  · exact .inl (workerStep_frame s i env).links
  · exact houtside.links

/-- A job is refused, outside `send_redundant`, only if no link was picked for it. -/
theorem step_refused (hcopies : s.dispatcher.copies = false) :
    (s.step a).shared.refused = s.shared.refused ∨
      ∃ job fec env, s.dispatcher = .picking job fec ∧ a = .dispatcher env ∧
        ∀ idx, env.picked = some idx → ¬idx < n := by
  rcases step_outside s a with ⟨env, rfl⟩ | ⟨i, env, rfl⟩ | houtside
  · rcases dispatcherStep_shared s env with hframe | ⟨job, fec, hd, hpicked, -⟩ | ⟨htrue, -⟩
    · exact .inl hframe.refused
    · exact .inr ⟨job, fec, env, hd, rfl, hpicked⟩
    · exact nomatch hcopies.symm.trans htrue
  · exact .inl (workerStep_frame s i env).refused
  · exact .inl houtside.refused

/-- A job that is new, outside `send_redundant`, is in the dispatcher's hands. -/
theorem step_taken (hcopies : s.dispatcher.copies = false) : Taken s (s.step a) := by
  rcases step_outside s a with ⟨env, rfl⟩ | ⟨i, env, rfl⟩ | houtside
  · rcases dispatcherStep_shared s env with hframe | ⟨job, fec, -, -, hrefuse⟩ | ⟨htrue, -⟩
    · exact .inl hframe.offered
    · refine .inl ?_
      rw [show (s.step (.dispatcher env)).shared = s.shared.refuse job from hrefuse]
      rfl
    · exact nomatch hcopies.symm.trans htrue
  · exact .inl (workerStep_frame s i env).offered
  · exact houtside.taken

/-! ## Collecting the targets of a redundant frame -/

/-- The index of the link that `send_redundant` reads next. -/
def Dispatcher.reads : Dispatcher n → Option Nat
  | .collecting _ next _ _ => some next
  | _ => none

theorem dispatcherStep_collecting
    (h : (s.dispatcherStep env).dispatcher = .collecting plaintext next up any) :
    ∃ (k : Fin n) (up' any' : List (Fin n)), next = k.1 + 1 ∧
      s.dispatcher = .collecting plaintext k up' any' ∧
      up = if (s.shared.links k).remote ∧ (s.shared.links k).state = .Up then up' ++ [k]
        else up' := by
  obtain ⟨sh', hmove⟩ := dispatcherStep_moves s env
  rw [h] at hmove
  generalize s.dispatcher = d at hmove ⊢
  cases hmove with
  | collects idx => exact ⟨idx, _, _, rfl, rfl, rfl⟩

/-- The links are read one by one, from the first. -/
theorem step_collecting (h : (s.step a).dispatcher = .collecting plaintext next up any) :
    s.dispatcher = .collecting plaintext next up any ∨
      (next = 0 ∧ up = []) ∨
      (∃ env, a = .dispatcher env) ∧
        ∃ (k : Fin n) (up' any' : List (Fin n)), next = k.1 + 1 ∧
          s.dispatcher = .collecting plaintext k up' any' ∧
          up = if (s.shared.links k).remote ∧ (s.shared.links k).state = .Up then up' ++ [k]
            else up' := by
  rcases step_tasks s a with ⟨env, rfl, -⟩ | ⟨i, env, rfl, honly⟩ | ⟨-, hdispatcher⟩
  · exact .inr (.inr ⟨⟨env, rfl⟩, dispatcherStep_collecting h⟩)
  · exact .inl (honly.dispatcher ▸ h)
  · rcases hdispatcher with hsame | ⟨job, forced, fec, hoffered⟩ | ⟨plaintext, hcollecting⟩
    · exact .inl (hsame ▸ h)
    · rw [hoffered] at h
      exact nomatch h
    · rw [hcollecting] at h
      cases h
      exact .inr (.inl ⟨rfl, rfl⟩)

/-! ## What the dispatcher comes to -/

theorem dispatcherStep_copies (h : (s.dispatcherStep env).dispatcher.copies = true) :
    s.dispatcher.copies = true := by
  obtain ⟨sh', hmove⟩ := dispatcherStep_moves s env
  generalize (s.dispatcherStep env).dispatcher = d', s.dispatcher = d at h hmove ⊢
  cases hmove with
  | collects idx => rfl
  | numbers hnext => rfl
  | copies => rfl
  | enqueues hq => rfl
  | undoes f hf => rfl
  | _ => exact nomatch h

/-- `send_redundant` is entered in one way only. -/
theorem step_copies (h : (s.step a).dispatcher.copies = true) :
    s.dispatcher.copies = true ∨ ∃ plaintext, a = .sendRedundant plaintext := by
  cases a with
  | setLink i view => exact .inl h
  | setDelivery i ppm => exact .inl h
  | overflow => exact .inl h
  | dispatch ptype plaintext forced now =>
    simp only [State.step] at h
    split at h
    · cases h
    · exact .inl h
  | dispatchFec plaintext now =>
    simp only [State.step] at h
    split at h
    · cases h
    · exact .inl h
  | sendRedundant plaintext => exact .inr ⟨plaintext, rfl⟩
  | dispatcher env => exact .inl (dispatcherStep_copies h)
  | worker i env => exact .inl ((workerStep_only s i env).dispatcher ▸ h)

theorem dispatcherStep_not_offered (s : State n) (env : Env) (job : Job n) (forced : Option Nat)
    (fec : Bool) : (s.dispatcherStep env).dispatcher ≠ .offered job forced fec := by
  intro h
  obtain ⟨sh', hmove⟩ := dispatcherStep_moves s env
  rw [h] at hmove
  generalize s.dispatcher = d at hmove
  cases hmove

/-- A frame is forced to a link by whoever dispatches it. -/
theorem step_offered {forced : Option Nat} (h : (s.step a).dispatcher = .offered job forced fec) :
    s.dispatcher = .offered job forced fec ∨ forced = none ∨
      ∃ plaintext now, a = .dispatch job.ptype plaintext forced now := by
  cases a with
  | setLink i view => exact .inl h
  | setDelivery i ppm => exact .inl h
  | overflow => exact .inl h
  | dispatch ptype plaintext forced now =>
    simp only [State.step] at h
    split at h
    · cases h
      exact .inr (.inr ⟨plaintext, now, rfl⟩)
    · exact .inl h
  | dispatchFec plaintext now =>
    simp only [State.step] at h
    split at h
    · cases h
      exact .inr (.inl rfl)
    · exact .inl h
  | sendRedundant plaintext =>
    simp only [State.step] at h
    split at h
    · cases h
    · exact .inl h
  | dispatcher env => exact absurd h (dispatcherStep_not_offered s env job forced fec)
  | worker i env => exact .inl ((workerStep_only s i env).dispatcher ▸ h)

/-- The dispatcher starts to spill when the queue is full and the mode allows it, or
when the queue is closed. -/
theorem dispatcherStep_spilling
    (h : (s.dispatcherStep env).dispatcher = .spilling job fromLink pc fec) :
    (∃ pc', s.dispatcher = .spilling job fromLink pc' fec) ∨
      s.dispatcher = .reserving job fromLink fec ∧
        (s.shared.allowSpill = true ∨ (s.shared.queues fromLink).closed = true) := by
  obtain ⟨sh', hmove⟩ := dispatcherStep_moves s env
  rw [h] at hmove
  generalize s.dispatcher = d at hmove ⊢
  cases hmove with
  | overflows hspill hq => exact .inr ⟨rfl, .inl hspill⟩
  | closed hq =>
    refine .inr ⟨rfl, .inr ?_⟩
    unfold LinkTx.tryReserve at hq
    split at hq
    case isTrue hclosed => exact hclosed
    case isFalse => split at hq <;> cases hq
  | spills hpc => exact .inl ⟨_, rfl⟩

theorem step_spilling (h : (s.step a).dispatcher = .spilling job fromLink pc fec) :
    (∃ pc', s.dispatcher = .spilling job fromLink pc' fec) ∨
      s.dispatcher = .reserving job fromLink fec ∧
        (s.shared.allowSpill = true ∨ (s.shared.queues fromLink).closed = true) := by
  rcases step_tasks s a with ⟨env, rfl, -⟩ | ⟨i, env, rfl, honly⟩ | ⟨-, hdispatcher⟩
  · exact dispatcherStep_spilling h
  · exact .inl ⟨pc, honly.dispatcher ▸ h⟩
  · rcases hdispatcher with hsame | ⟨job', forced, fec', hoffered⟩ | ⟨plaintext, hcollecting⟩
    · exact .inl ⟨pc, hsame ▸ h⟩
    · rw [hoffered] at h
      exact nomatch h
    · rw [hcollecting] at h
      exact nomatch h

end Mlvpn.Ports.TxDispatch
