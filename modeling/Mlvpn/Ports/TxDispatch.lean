import Mlvpn.Ports.FecRecovery

/-!
# The send path

Port of `tunnel::TxDispatcher`, `link_tx_worker` and what they share: one
bounded queue per link, the lock-free counters, and the tasks that move jobs
between them.  `outbound_sender` is the only dispatcher; every link has one
worker, which also re-places the jobs it could not send.

A task is its program counter.  One action lets one task take its next atomic
step, so a list of actions is an interleaving; whatever the code reads from
elsewhere (the scheduler's pick, the kernel's answers, the clock, another task
changing a link) comes with the action.  The permit of a reservation is counted
in its queue until the hand-over, and `depth` is raised in a step of its own, as
in `send_reserved` and `try_enqueue`.

Two fields of a job are ghosts: `id` names the job for good, `placed` lists the
links whose queues accepted it.
-/

namespace Mlvpn.Ports.TxDispatch

open Protocol
open FecRecovery (Instant)

/-! ## Jobs and queues -/

def TX_WORKER_BATCH : Nat := 32
def SPILL_MIN_DELIVERY_PPM : Nat := 500000

inductive LinkState where
  | Probing
  | Up
  | Down
deriving Repr, DecidableEq

/-- What the send path reads of a `Link`: `remote` is `remote.is_some()`. -/
structure LinkView where
  state : LinkState
  adminDisabled : Bool
  remote : Bool
deriving Repr, DecidableEq

/-- A job's claim on its FEC gate. -/
structure FecMember where
  carried : Bool
deriving Repr, DecidableEq

def FecMember.markCarried (_ : FecMember) : FecMember := { carried := true }

structure TxJob where
  ptype : PacketType
  seq : UInt64
  plaintext : Bytes
  rerouted : Bool
  enqueued : Instant
  member : Option FecMember
deriving Repr, DecidableEq

def TxJob.new (ptype : PacketType) (seq : UInt64) (plaintext : Bytes) (now : Instant) : TxJob where
  ptype := ptype
  seq := seq
  plaintext := plaintext
  rerouted := false
  enqueued := now
  member := none

/-- A job with its identity and the links that took it, oldest first. -/
structure Job (n : Nat) extends TxJob where
  id : Nat
  placed : List (Fin n)
deriving Repr, DecidableEq

/-- The queue of link `i` takes the job. -/
def Job.place {n : Nat} (job : Job n) (i : Fin n) : Job n :=
  { job with placed := job.placed ++ [i] }

/-- The counters of `link::TxCounters` that the send path itself moves or reads. -/
structure TxCounters where
  queueFull : Nat
  sendFailed : Nat
  reroutedAway : Nat
  depth : UInt32
  deliveryPpm : Nat
deriving Repr, DecidableEq

inductive TrySendError where
  | Full
  | Closed
deriving Repr, DecidableEq

/-- A link's bounded channel: queued jobs and reserved slots share its capacity. -/
structure LinkTx (n : Nat) where
  capacity : Nat
  closed : Bool
  jobs : List (Job n)
  permits : Nat
  counters : TxCounters
  room : jobs.length + permits ≤ capacity

namespace LinkTx

variable {n : Nat}

/-- `mpsc::Sender::capacity`: the free slots. -/
def free (q : LinkTx n) : Nat := q.capacity - (q.jobs.length + q.permits)

def count (q : LinkTx n) (f : TxCounters → TxCounters) : LinkTx n :=
  { q with counters := f q.counters }

def tryReserve (q : LinkTx n) : Except TrySendError (LinkTx n) :=
  if q.closed then .error .Closed
  else if h : q.jobs.length + q.permits < q.capacity then
    .ok { q with permits := q.permits + 1, room := h }
  else .error .Full

/-- `Permit::send`: the reserved slot takes the job. -/
def send (q : LinkTx n) (job : Job n) : LinkTx n :=
  if h : 0 < q.permits then
    { q with
      jobs := q.jobs ++ [job]
      permits := q.permits - 1
      room := by have := q.room; simp only [List.length_append, List.length_singleton]; omega }
  else q

def trySend (q : LinkTx n) (job : Job n) : Except TrySendError (LinkTx n) :=
  if q.closed then .error .Closed
  else if h : q.jobs.length + q.permits < q.capacity then
    .ok { q with
          jobs := q.jobs ++ [job]
          room := by simp only [List.length_append, List.length_singleton]; omega }
  else .error .Full

theorem tryReserve_eq_ok {q q' : LinkTx n} (h : q.tryReserve = .ok q') :
    q.closed = false ∧ ∃ room : q.jobs.length + q.permits < q.capacity,
      q' = { q with permits := q.permits + 1, room } := by
  unfold tryReserve at h
  split at h
  case isTrue => cases h
  case isFalse hopen =>
    split at h
    case isTrue hroom =>
      cases h
      exact ⟨Bool.eq_false_of_not_eq_true hopen, hroom, rfl⟩
    case isFalse => cases h

theorem trySend_eq_ok {q q' : LinkTx n} {job : Job n} (h : q.trySend job = .ok q') :
    ∃ room, q' = { q with jobs := q.jobs ++ [job], room } := by
  unfold trySend at h
  split at h
  · cases h
  · split at h
    · cases h
      exact ⟨_, rfl⟩
    · cases h

/-- `Receiver::recv_many`: the first `k` jobs leave the queue. -/
def recvMany (q : LinkTx n) (k : Nat) : List (Job n) × LinkTx n :=
  (q.jobs.take k,
    { q with
      jobs := q.jobs.drop k
      room := by have := q.room; simp only [List.length_drop]; omega })

end LinkTx

/-! ## Spilling -/

/-- `free[b].cmp(&free[a]).then(a.cmp(&b))`: freer first, then by index. -/
def spillOrder (free : List Nat) (a b : Nat) : Prop :=
  free.getD b 0 < free.getD a 0 ∨ (free.getD a 0 = free.getD b 0 ∧ a ≤ b)

instance (free : List Nat) (a b : Nat) : Decidable (spillOrder free a b) :=
  inferInstanceAs (Decidable (_ ∨ _))

def spillCandidates (free deliveryPpm : List Nat) (fromLink : Nat) : List Nat :=
  ((List.range free.length).filter fun i =>
    i ≠ fromLink ∧ free.getD i 0 > 0 ∧
      (deliveryPpm[i]?).getD 1000000 ≥ SPILL_MIN_DELIVERY_PPM).insertionSort (spillOrder free)

/-- A link other than `from`. -/
abbrev Other (n : Nat) (fromLink : Fin n) := { i : Fin n // i ≠ fromLink }

/-- The candidates as links of the tunnel; each is one, and not `from`. -/
def candidates {n : Nat} (free deliveryPpm : List Nat) (fromLink : Fin n) :
    List (Other n fromLink) :=
  (spillCandidates free deliveryPpm fromLink).filterMap fun i =>
    if h : i < n then
      if hne : (⟨i, h⟩ : Fin n) ≠ fromLink then some ⟨⟨i, h⟩, hne⟩ else none
    else none

/-- Where `spill_reserve` is: reading every queue's room, then every queue's
delivery factor, then trying the candidates in turn. -/
inductive Spill (n : Nat) (fromLink : Fin n) where
  | readFree (free : List Nat)
  | readDelivery (free delivery : List Nat)
  | scan (cands : List (Other n fromLink))
  | reserve (cand : Other n fromLink) (cands : List (Other n fromLink))

/-- What one step of `spill_reserve` comes to. -/
inductive Spilled (n : Nat) (fromLink : Fin n) where
  | more (pc : Spill n fromLink)
  | reserved (cand : Other n fromLink)
  | failed

/-! ## Tasks -/

/-- `Ok(carried)`, or an error that may say `ENOSYS`. -/
inductive SendResult where
  | ok (carried : Bool)
  | err (unsupported : Bool)
deriving Repr, DecidableEq

/-- Where `outbound_sender` is.  `fec` marks a frame that joins its FEC group,
and gets its sequence number, only after the reservation. -/
inductive Dispatcher (n : Nat) where
  | idle
  | offered (job : Job n) (forced : Option Nat) (fec : Bool)
  | picking (job : Job n) (fec : Bool)
  | reserving (job : Job n) (idx : Fin n) (fec : Bool)
  | spilling (job : Job n) (fromLink : Fin n) (pc : Spill n fromLink) (fec : Bool)
  | holding (job : Job n) (idx : Fin n) (fec : Bool)
  | raised (job : Job n) (idx : Fin n)
  | collecting (plaintext : Bytes) (next : Nat) (up any : List (Fin n))
  | copying (seq : UInt64) (plaintext : Bytes) (targets : List (Fin n))
  | copyRaised (job : Job n) (idx : Fin n) (targets : List (Fin n))

/-- The part of a batch a worker has not dealt with: jobs whose results are
already in, or jobs still to be sent one by one. -/
inductive Rest (n : Nat) where
  | results (rest : List (Job n × SendResult)) (unsupported : Bool)
  | perPacket (target : Bool) (rest : List (Job n))

/-- Where worker `i` is. -/
inductive WorkerPc (n : Nat) (i : Fin n) where
  | waiting
  | fetched (batch : List (Job n))
  | batched (batch : List (Job n))
  | running (rest : Rest n)
  | rerouting (job : Job n) (pc : Spill n i) (rest : Rest n)
  | holding (job : Job n) (idx : Other n i) (rest : Rest n)
  | raised (job : Job n) (idx : Other n i) (rest : Rest n)

structure Worker (n : Nat) (i : Fin n) where
  /-- `mmsg_tx::State::active`. -/
  active : Bool
  batchLen : Nat
  pc : WorkerPc n i

/-- What the tasks share.  `sent`, `dropped` and `refused` are ghosts: the jobs
a worker sent, those dropped with `drop_job`, and those never accepted. -/
structure Shared (n : Nat) where
  links : Fin n → LinkView
  queues : Fin n → LinkTx n
  allowSpill : Bool
  sendSeq : UInt64
  droppedTotal : UInt64
  overflowed : Nat
  offered : Nat
  sent : List (Fin n × Job n)
  dropped : List (Job n)
  refused : List (Job n)

structure State (n : Nat) where
  shared : Shared n
  dispatcher : Dispatcher n
  workers : (i : Fin n) → Worker n i

/-- What a step reads from outside the send path. -/
structure Env where
  /-- The scheduler's pick. -/
  picked : Option Nat
  /-- How many queued jobs `recv_many` finds. -/
  available : Nat
  /-- The kernel's answer to one send, and to the sends of a batch. -/
  result : SendResult
  results : List SendResult
  now : Instant

/-! ## Steps on the shared state -/

namespace Shared

variable {n : Nat}

def setQueue (sh : Shared n) (i : Fin n) (q : LinkTx n) : Shared n :=
  { sh with queues := Function.update sh.queues i q }

def count (sh : Shared n) (i : Fin n) (f : TxCounters → TxCounters) : Shared n :=
  sh.setQueue i ((sh.queues i).count f)

/-- `drop_job`, with the job it is called for. -/
def dropJob (sh : Shared n) (job : Job n) : Shared n :=
  { sh with droppedTotal := sh.droppedTotal + 1, dropped := sh.dropped ++ [job] }

/-- The job goes away without being counted: no link, or no room for a copy. -/
def refuse (sh : Shared n) (job : Job n) : Shared n := { sh with refused := sh.refused ++ [job] }

/-- The depth rises before the hand-over. -/
def raise (sh : Shared n) (i : Fin n) : Shared n :=
  sh.count i fun c => { c with depth := c.depth + 1 }

/-- `permit.send(job)`. -/
def handOver (sh : Shared n) (i : Fin n) (job : Job n) : Shared n :=
  sh.setQueue i ((sh.queues i).send (job.place i))

/-- `g.state == Up && !g.admin_disabled && g.remote.is_some()`. -/
def usable (sh : Shared n) (i : Fin n) : Bool :=
  (sh.links i).state = .Up && !(sh.links i).adminDisabled && (sh.links i).remote

/-- The links `spill_reserve` skips. -/
def unfit (sh : Shared n) (i : Fin n) : Bool :=
  (sh.links i).state = .Down || (sh.links i).adminDisabled || !(sh.links i).remote

end Shared

/-- One step of `spill_reserve(from)`; the caller drops its job when it fails. -/
def Spill.step {n : Nat} {fromLink : Fin n} (sh : Shared n) :
    Spill n fromLink → Shared n × Spilled n fromLink
  | .readFree free =>
      if h : free.length < n then
        (sh, .more (.readFree (free ++ [(sh.queues ⟨free.length, h⟩).free])))
      else (sh, .more (.readDelivery free []))
  | .readDelivery free delivery =>
      if h : delivery.length < n then
        (sh, .more (.readDelivery free
          (delivery ++ [(sh.queues ⟨delivery.length, h⟩).counters.deliveryPpm])))
      else (sh, .more (.scan (candidates free delivery fromLink)))
  | .scan [] => (sh, .failed)
  | .scan (cand :: cands) =>
      if sh.unfit cand then (sh, .more (.scan cands)) else (sh, .more (.reserve cand cands))
  | .reserve cand cands =>
      match (sh.queues cand).tryReserve with
      | .ok q =>
          ((sh.setQueue cand q).count fromLink
              fun c => { c with reroutedAway := c.reroutedAway + 1 },
            .reserved cand)
      | .error _ => (sh, .more (.scan cands))

/-! ## The dispatcher -/

namespace State

variable {n : Nat}

/-- `targets`: the links that are up, or all that have a remote when none is. -/
def redundantTargets (up any : List (Fin n)) : List (Fin n) := if up = [] then any else up

def setDispatcher (s : State n) (sh : Shared n) (d : Dispatcher n) : State n :=
  { s with shared := sh, dispatcher := d }

def dispatcherStep (s : State n) (env : Env) : State n :=
  let sh := s.shared
  match s.dispatcher with
  | .idle => s
  | .offered job forced fec =>
      match forced with
      | some f =>
          if h : f < n then
            if sh.usable ⟨f, h⟩ then s.setDispatcher sh (.reserving job ⟨f, h⟩ fec)
            else s.setDispatcher sh (.picking job fec)
          else s.setDispatcher sh (.picking job fec)
      | none => s.setDispatcher sh (.picking job fec)
  | .picking job fec =>
      match env.picked with
      | none => s.setDispatcher (sh.refuse job) .idle
      | some idx =>
          if h : idx < n then s.setDispatcher sh (.reserving job ⟨idx, h⟩ fec)
          else s.setDispatcher (sh.refuse job) .idle
  | .reserving job idx fec =>
      match (sh.queues idx).tryReserve with
      | .ok q => s.setDispatcher (sh.setQueue idx q) (.holding job idx fec)
      | .error .Full =>
          let sh := sh.count idx fun c => { c with queueFull := c.queueFull + 1 }
          if sh.allowSpill then s.setDispatcher sh (.spilling job idx (.readFree []) fec)
          else s.setDispatcher (sh.dropJob job) .idle
      | .error .Closed => s.setDispatcher sh (.spilling job idx (.readFree []) fec)
  | .spilling job fromLink pc fec =>
      match pc.step sh with
      | (sh, .more pc) => s.setDispatcher sh (.spilling job fromLink pc fec)
      | (sh, .reserved cand) => s.setDispatcher sh (.holding job cand fec)
      | (sh, .failed) => s.setDispatcher (sh.dropJob job) .idle
  | .holding job idx true =>
      -- The frame joins its group: only now does it get a number and a member.
      s.setDispatcher { sh with sendSeq := sh.sendSeq + 1 }
        (.holding { job with seq := sh.sendSeq, enqueued := env.now,
                             member := some { carried := false } } idx false)
  | .holding job idx false =>
      s.setDispatcher (sh.raise idx) (.raised { job with enqueued := env.now } idx)
  | .raised job idx => s.setDispatcher (sh.handOver idx job) .idle
  | .collecting plaintext next up any =>
      if h : next < n then
        let link := sh.links ⟨next, h⟩
        let any := if link.remote then any ++ [⟨next, h⟩] else any
        let up := if link.remote ∧ link.state = .Up then up ++ [⟨next, h⟩] else up
        s.setDispatcher sh (.collecting plaintext (next + 1) up any)
      else if redundantTargets up any = [] then s.setDispatcher sh .idle
      else
        -- Every copy carries the same number.
        s.setDispatcher { sh with sendSeq := sh.sendSeq + 1 }
          (.copying sh.sendSeq plaintext (redundantTargets up any))
  | .copying _ _ [] => s.setDispatcher sh .idle
  | .copying seq plaintext (idx :: targets) =>
      let job : Job n :=
        { TxJob.new .Data seq plaintext env.now with
          rerouted := true
          id := sh.offered
          placed := [] }
      s.setDispatcher ({ sh with offered := sh.offered + 1 }.raise idx)
        (.copyRaised job idx targets)
  | .copyRaised job idx targets =>
      match (sh.queues idx).trySend (job.place idx) with
      | .ok q => s.setDispatcher (sh.setQueue idx q) (.copying job.seq job.plaintext targets)
      | .error e =>
          let undone := (sh.refuse job).count idx fun c =>
            { c with depth := c.depth - 1
                     queueFull := if e = .Full then c.queueFull + 1 else c.queueFull }
          s.setDispatcher undone (.copying job.seq job.plaintext targets)

/-! ## The workers -/

def setWorker (s : State n) (sh : Shared n) (i : Fin n) (w : Worker n i) : State n :=
  { s with shared := sh, workers := Function.update s.workers i w }

/-- Worker `i` goes on at `pc`. -/
def goOn (s : State n) (sh : Shared n) (i : Fin n) (pc : WorkerPc n i) : State n :=
  s.setWorker sh i { s.workers i with pc := pc }

/-- The send went through; `carried` reaches the job's FEC member. -/
def noteSent (sh : Shared n) (i : Fin n) (job : Job n) (carried : Bool) : Shared n :=
  let job := if carried then { job with member := job.member.map FecMember.markCarried } else job
  { sh with sent := sh.sent ++ [(i, job)] }

/-- The send failed: count it and call `reroute(i, job)`, which drops a job that
was rerouted before and starts to spill any other. -/
def sendFailed (s : State n) (i : Fin n) (job : Job n) (rest : Rest n) : State n :=
  let sh := s.shared.count i fun c => { c with sendFailed := c.sendFailed + 1 }
  if job.rerouted then s.goOn (sh.dropJob job) i (.running rest)
  else s.goOn sh i (.rerouting { job with rerouted := true } (.readFree []) rest)

/-- The end of a batch: the queue is that much less deep. -/
def finishBatch (s : State n) (i : Fin n) (active : Bool) : State n :=
  s.setWorker
    (s.shared.count i fun c => { c with depth := c.depth - UInt32.ofNat (s.workers i).batchLen })
    i { active, batchLen := 0, pc := .waiting }

def workerStep (s : State n) (i : Fin n) (env : Env) : State n :=
  let sh := s.shared
  let w := s.workers i
  match w.pc with
  | .waiting =>
      let (batch, q) := (sh.queues i).recvMany (min env.available TX_WORKER_BATCH)
      if batch = [] then s
      else s.setWorker (sh.setQueue i q) i
        { w with batchLen := batch.length, pc := .fetched batch }
  | .fetched batch =>
      if w.active && (sh.links i).remote then s.goOn sh i (.batched batch)
      else s.goOn sh i (.running (.perPacket (sh.links i).remote batch))
  | .batched batch =>
      -- `wg_send_batch` leaves one result per frame.
      if env.results.length = batch.length then
        s.goOn sh i (.running (.results (batch.zip env.results) false))
      else s
  | .running (.results [] unsupported) => s.finishBatch i (w.active && !unsupported)
  | .running (.results ((job, .ok carried) :: rest) unsupported) =>
      s.goOn (noteSent sh i job carried) i (.running (.results rest unsupported))
  | .running (.results ((job, .err enosys) :: rest) unsupported) =>
      s.sendFailed i job (.results rest (unsupported || enosys))
  | .running (.perPacket _ []) => s.finishBatch i w.active
  | .running (.perPacket false (job :: rest)) => s.sendFailed i job (.perPacket false rest)
  | .running (.perPacket true (job :: rest)) =>
      match env.result with
      | .ok carried => s.goOn (noteSent sh i job carried) i (.running (.perPacket true rest))
      | .err _ => s.sendFailed i job (.perPacket true rest)
  | .rerouting job pc rest =>
      match pc.step sh with
      | (sh, .more pc) => s.goOn sh i (.rerouting job pc rest)
      | (sh, .reserved cand) => s.goOn sh i (.holding job cand rest)
      | (sh, .failed) => s.goOn (sh.dropJob job) i (.running rest)
  | .holding job idx rest =>
      s.goOn (sh.raise idx) i (.raised { job with enqueued := env.now } idx rest)
  | .raised job idx rest => s.goOn (sh.handOver idx job) i (.running rest)

end State

/-! ## What a step can do -/

/-- The steps of `spill_reserve`: it goes on, towards a candidate only if that one is fit, it finds
no more of them, or it takes a slot. -/
inductive Spill.Moves {n : Nat} {fromLink : Fin n} (sh : Shared n) :
    Spill n fromLink → Shared n → Spilled n fromLink → Prop where
  | goesOn {pc pc'}
      (hfit : ∀ (cand : Other n fromLink) cands,
        pc' = .reserve cand cands → sh.unfit cand = false) :
      Moves sh pc sh (.more pc')
  | fails {pc} : Moves sh pc sh .failed
  | takes {cands q} {cand : Other n fromLink} (hq : (sh.queues cand).tryReserve = .ok q) :
      Moves sh (.reserve cand cands)
        ((sh.setQueue cand q).count fromLink fun c => { c with reroutedAway := c.reroutedAway + 1 })
        (.reserved cand)

theorem Spill.step_moves {n : Nat} {fromLink : Fin n} (sh : Shared n) (pc : Spill n fromLink) :
    pc.Moves sh (pc.step sh).1 (pc.step sh).2 := by
  cases pc with
  | readFree free =>
    simp only [Spill.step]
    split <;> exact .goesOn fun _ _ h => nomatch h
  | readDelivery free delivery =>
    simp only [Spill.step]
    split <;> exact .goesOn fun _ _ h => nomatch h
  | scan cands =>
    cases cands with
    | nil => exact .fails
    | cons cand cands =>
      simp only [Spill.step]
      split
      · exact .goesOn fun _ _ h => nomatch h
      case isFalse hfit =>
        refine .goesOn fun cand' cands' h => ?_
        cases h
        exact Bool.not_eq_true _ |>.mp hfit
  | reserve cand cands =>
    simp only [Spill.step]
    cases hq : (sh.queues cand).tryReserve with
    | ok q => exact .takes hq
    | error e => exact .goesOn fun _ _ h => nomatch h

/-- The steps of `outbound_sender`. -/
inductive Dispatcher.Moves {n : Nat} (env : Env) (sh : Shared n) :
    Dispatcher n → Shared n → Dispatcher n → Prop where
  | rests : Moves env sh .idle sh .idle
  | forced {job fec} {idx : Fin n} (husable : sh.usable idx = true) :
      Moves env sh (.offered job (some idx.1) fec) sh (.reserving job idx fec)
  | unforced {job forced fec} : Moves env sh (.offered job forced fec) sh (.picking job fec)
  | picks {job fec} (idx : Fin n) (hpicked : env.picked = some idx.1) :
      Moves env sh (.picking job fec) sh (.reserving job idx fec)
  | refuses {job fec} (hpicked : ∀ idx, env.picked = some idx → ¬idx < n) :
      Moves env sh (.picking job fec) (sh.refuse job) .idle
  | reserves {job idx fec q} (hq : (sh.queues idx).tryReserve = .ok q) :
      Moves env sh (.reserving job idx fec) (sh.setQueue idx q) (.holding job idx fec)
  | overflows {job idx fec} (hspill : sh.allowSpill = true)
      (hq : (sh.queues idx).tryReserve = .error .Full) :
      Moves env sh (.reserving job idx fec)
        (sh.count idx fun c => { c with queueFull := c.queueFull + 1 })
        (.spilling job idx (.readFree []) fec)
  | drops {job idx fec} (hq : (sh.queues idx).tryReserve = .error .Full) :
      Moves env sh (.reserving job idx fec)
        ((sh.count idx fun c => { c with queueFull := c.queueFull + 1 }).dropJob job) .idle
  | closed {job idx fec} (hq : (sh.queues idx).tryReserve = .error .Closed) :
      Moves env sh (.reserving job idx fec) sh (.spilling job idx (.readFree []) fec)
  | spills {job fromLink pc pc' fec sh'} (hpc : pc.Moves sh sh' (.more pc')) :
      Moves env sh (.spilling job fromLink pc fec) sh' (.spilling job fromLink pc' fec)
  | spilled {job fromLink pc fec sh'} {cand : Other n fromLink}
      (hpc : pc.Moves sh sh' (.reserved cand)) :
      Moves env sh (.spilling job fromLink pc fec) sh' (.holding job cand fec)
  | givesUp {job fromLink pc fec sh'} (hpc : pc.Moves sh sh' .failed) :
      Moves env sh (.spilling job fromLink pc fec) (sh'.dropJob job) .idle
  | joins {job idx} :
      Moves env sh (.holding job idx true) { sh with sendSeq := sh.sendSeq + 1 }
        (.holding { job with seq := sh.sendSeq, enqueued := env.now,
                             member := some { carried := false } } idx false)
  | raises {job idx} : Moves env sh (.holding job idx false) (sh.raise idx)
      (.raised { job with enqueued := env.now } idx)
  | handsOver {job idx} : Moves env sh (.raised job idx) (sh.handOver idx job) .idle
  | collects {plaintext up any any'} (idx : Fin n) :
      Moves env sh (.collecting plaintext idx up any) sh
        (.collecting plaintext (idx + 1)
          (if (sh.links idx).remote ∧ (sh.links idx).state = .Up then up ++ [idx] else up) any')
  | untargeted {plaintext next up any} : Moves env sh (.collecting plaintext next up any) sh .idle
  | numbers {plaintext next up any} (hnext : n ≤ next) :
      Moves env sh (.collecting plaintext next up any) { sh with sendSeq := sh.sendSeq + 1 }
        (.copying sh.sendSeq plaintext (State.redundantTargets up any))
  | copied {seq plaintext} : Moves env sh (.copying seq plaintext []) sh .idle
  | copies {seq plaintext idx targets} :
      Moves env sh (.copying seq plaintext (idx :: targets))
        ({ sh with offered := sh.offered + 1 }.raise idx)
        (.copyRaised { TxJob.new .Data seq plaintext env.now with
                         rerouted := true, id := sh.offered, placed := [] } idx targets)
  | enqueues {job idx targets q} (hq : (sh.queues idx).trySend (job.place idx) = .ok q) :
      Moves env sh (.copyRaised job idx targets) (sh.setQueue idx q)
        (.copying job.seq job.plaintext targets)
  | undoes {job idx targets} (f : TxCounters → TxCounters) (hf : ∀ c, (f c).depth = c.depth - 1) :
      Moves env sh (.copyRaised job idx targets) ((sh.refuse job).count idx f)
        (.copying job.seq job.plaintext targets)

namespace State

variable {n : Nat}

theorem dispatcherStep_eq (s : State n) (env : Env) :
    ∃ sh d, s.dispatcherStep env = s.setDispatcher sh d ∧ s.dispatcher.Moves env s.shared sh d := by
  obtain ⟨sh, d, ws⟩ := s
  cases d with
  | idle => exact ⟨_, _, rfl, .rests⟩
  | offered job forced fec =>
    simp only [dispatcherStep]
    repeat' split
    · exact ⟨_, _, rfl, .forced ‹_›⟩
    all_goals exact ⟨_, _, rfl, .unforced⟩
  | picking job fec =>
    simp only [dispatcherStep]
    cases hpicked : env.picked with
    | none => exact ⟨_, _, rfl, .refuses fun _ h => nomatch hpicked.symm.trans h⟩
    | some idx =>
      simp only
      split
      case isTrue hlt => exact ⟨_, _, rfl, .picks ⟨idx, hlt⟩ hpicked⟩
      case isFalse hge =>
        refine ⟨_, _, rfl, .refuses fun idx' h => ?_⟩
        cases hpicked.symm.trans h
        exact hge
  | reserving job idx fec =>
    simp only [dispatcherStep]
    cases hq : (sh.queues idx).tryReserve with
    | ok q => exact ⟨_, _, rfl, .reserves hq⟩
    | error e =>
      cases e with
      | Closed => exact ⟨_, _, rfl, .closed hq⟩
      | Full =>
        simp only
        split
        case isTrue hspill => exact ⟨_, _, rfl, .overflows hspill hq⟩
        case isFalse => exact ⟨_, _, rfl, .drops hq⟩
  | spilling job fromLink pc fec =>
    have hpc := pc.step_moves sh
    simp only [dispatcherStep]
    rcases hstep : pc.step sh with ⟨sh', out⟩
    rw [hstep] at hpc
    cases out with
    | more pc' => exact ⟨_, _, rfl, .spills hpc⟩
    | reserved cand => exact ⟨_, _, rfl, .spilled hpc⟩
    | failed => exact ⟨_, _, rfl, .givesUp hpc⟩
  | holding job idx fec =>
    cases fec with
    | true => exact ⟨_, _, rfl, .joins⟩
    | false => exact ⟨_, _, rfl, .raises⟩
  | raised job idx => exact ⟨_, _, rfl, .handsOver⟩
  | collecting plaintext next up any =>
    simp only [dispatcherStep]
    split
    case isTrue hlt => exact ⟨_, _, rfl, .collects ⟨next, hlt⟩⟩
    case isFalse hge =>
      split
      · exact ⟨_, _, rfl, .untargeted⟩
      · exact ⟨_, _, rfl, .numbers (Nat.not_lt.mp hge)⟩
  | copying seq plaintext targets =>
    cases targets with
    | nil => exact ⟨_, _, rfl, .copied⟩
    | cons idx targets => exact ⟨_, _, rfl, .copies⟩
  | copyRaised job idx targets =>
    simp only [dispatcherStep]
    cases hq : (sh.queues idx).trySend (job.place idx) with
    | ok q => exact ⟨_, _, rfl, .enqueues hq⟩
    | error e => exact ⟨_, _, rfl, .undoes _ fun _ => rfl⟩

end State

/-! ## Runs -/

/-- One atomic step of the system. -/
inductive Action (n : Nat) where
  /-- Another task changes a link, or publishes a delivery factor. -/
  | setLink (i : Fin n) (view : LinkView)
  | setDelivery (i : Fin n) (ppm : Nat)
  /-- `tun_reader` finds the outbound queue full; it counts in the same total. -/
  | overflow
  /-- `outbound_sender` takes up a frame: `dispatch` it, or reserve and join FEC. -/
  | dispatch (ptype : PacketType) (plaintext : Bytes) (forced : Option Nat) (now : Instant)
  | dispatchFec (plaintext : Bytes) (now : Instant)
  | sendRedundant (plaintext : Bytes)
  /-- The dispatcher, or worker `i`, takes its next step. -/
  | dispatcher (env : Env)
  | worker (i : Fin n) (env : Env)

namespace State

variable {n : Nat}

/-- A frame is taken up when the dispatcher has nothing else in hand. -/
def offer (s : State n) (sh : Shared n) (job : TxJob) (forced : Option Nat) (fec : Bool) :
    State n :=
  s.setDispatcher { sh with offered := sh.offered + 1 }
    (.offered { job with id := sh.offered, placed := [] } forced fec)

def step (s : State n) : Action n → State n
  | .setLink i view =>
      { s with shared := { s.shared with links := Function.update s.shared.links i view } }
  | .setDelivery i ppm =>
      { s with shared := s.shared.count i fun c => { c with deliveryPpm := ppm } }
  | .overflow =>
      { s with shared := { s.shared with droppedTotal := s.shared.droppedTotal + 1
                                         overflowed := s.shared.overflowed + 1 } }
  | .dispatch ptype plaintext forced now =>
      match s.dispatcher with
      | .idle =>
          s.offer { s.shared with sendSeq := s.shared.sendSeq + 1 }
            (TxJob.new ptype s.shared.sendSeq plaintext now) forced false
      | _ => s
  | .dispatchFec plaintext now =>
      match s.dispatcher with
      | .idle => s.offer s.shared (TxJob.new .Data 0 plaintext now) none true
      | _ => s
  | .sendRedundant plaintext =>
      match s.dispatcher with
      | .idle => s.setDispatcher s.shared (.collecting plaintext 0 [] [])
      | _ => s
  | .dispatcher env => s.dispatcherStep env
  | .worker i env => s.workerStep i env

/-- The state after an interleaving. -/
def run (s : State n) (actions : List (Action n)) : State n := actions.foldl step s

end State

/-- How a tunnel with `n` links starts: every queue empty, every task idle.  A
closed queue is one whose worker is gone. -/
structure Config (n : Nat) where
  links : Fin n → LinkView
  capacity : Fin n → Nat
  closed : Fin n → Bool
  batched : Fin n → Bool
  allowSpill : Bool
  sendSeq : UInt64

def LinkTx.new {n : Nat} (capacity : Nat) (closed : Bool) : LinkTx n where
  capacity := capacity
  closed := closed
  jobs := []
  permits := 0
  counters :=
    { queueFull := 0, sendFailed := 0, reroutedAway := 0, depth := 0, deliveryPpm := 1000000 }
  room := Nat.zero_le _

def State.init {n : Nat} (cfg : Config n) : State n where
  shared :=
    { links := cfg.links
      queues := fun i => LinkTx.new (cfg.capacity i) (cfg.closed i)
      allowSpill := cfg.allowSpill
      sendSeq := cfg.sendSeq
      droppedTotal := 0
      overflowed := 0
      offered := 0
      sent := []
      dropped := []
      refused := [] }
  dispatcher := .idle
  workers := fun i => { active := cfg.batched i, batchLen := 0, pc := .waiting }

end Mlvpn.Ports.TxDispatch
