import Mlvpn.Ports.ParitySend
import Mlvpn.Ports.RateWindows
import Mlvpn.Ports.SendPath
import Mlvpn.Ports.TxDepth

/-!
# What the caps count and what the links carry

`swrr_pick_under_cap` counts a frame against the cap of the link it picks, when it picks it.
Which link the frame is queued to is settled afterwards, and not by the scheduler alone: parity
is forced to a link without a pick, a full queue spills its frame to another link or drops it, a
worker whose send failed queues the job elsewhere, and with an empty table the least bad link is
used without a check.  In all of these the count of some window and the frames queued during it
part ways.

The meter of this module adds up, for each link, the lengths of the frames its queue took since
the link's window began.  A step that `direct` admits is none of the above, as far as links with
a cap are concerned, and along such steps the two agree, up to the one frame that the dispatcher
has between its pick and its queue.

## Main results

* `Books.of_dispatcher`: between a pick and the hand-over nothing is lost or added.
* `accounted_step`, `accounted_run`: recorded bytes are queued bytes and the frame in hand.
* `recorded_eq_queued`: the equality over every direct run of a tunnel in weighted mode.
* `recorded_ne_queued`: two runs that are not direct.
-/

namespace Mlvpn.Ports.CapAccounting

open RateWindows Scheduling SendPath
open ConfigFile (SchedulerConfig)
open FecRecovery (Instant)
open FecSend (FecGroup)
open ParitySend (FecParityPlacement chooseParityLink)
open Protocol (Bytes PacketType)
open Scheduling.Scheduler (PickClock swrrPickUnderCap)
open TxDispatch (Dispatcher Env Job LinkTx Rest Shared Spill State WorkerPc
  jobs_count jobs_setQueue jobs_spill spill_reserved step_copies dispatcherStep_copies
  dispatcherStep_workers workerStep_binds workerStep_jobs
  workerStep_only)
open Verified
open TxFate (Reserved dispatcherHolds tryReserve_ok)

variable {F : Type*} [Floating F] {n : Nat}

/-! ## The meter -/

/-- The length of a frame, header included. -/
def wireLen (job : Job n) : Nat := TunnelMtu.HEADER_LEN.toNat + job.plaintext.length

/-- The jobs that a queue has taken: they are at its end. -/
def arrived (q q' : LinkTx n) : List (Job n) := q'.jobs.drop q.jobs.length

def arrivedBytes (s s' : State n) (k : Fin n) : Nat :=
  ((arrived (s.shared.queues k) (s'.shared.queues k)).map wireLen).sum

/-- A tunnel and, for each link, the bytes queued to it since its window began. -/
structure Metered (F : Type*) (n : Nat) where
  tunnel : Tunnel F n
  queued : Fin n → Nat

/-- The pick under caps that the step makes. -/
def pickMade (t : Tunnel F n) : Action F n → Option (PickClock × UInt64)
  | .pickFast clock =>
      match t.tx.dispatcher, t.scores with
      | .picking job _, none =>
          pickOf t.scheduler (.selectFast clock (SendPath.frameLen job) : Op F n)
      | _, _ => none
  | .pickSlow clock =>
      match t.tx.dispatcher, t.scores with
      | .picking job _, some scores =>
          if scores.length = n then
            pickOf t.scheduler (.selectFast clock (SendPath.frameLen job) : Op F n)
          else none
      | _, _ => none
  | _ => none

namespace Metered

/-- The windows that begin with a pick start from nothing. -/
def step (w : Metered F n) (a : Action F n) : Metered F n where
  tunnel := w.tunnel.step a
  queued := fun k =>
    (match pickMade w.tunnel a with
      | some (clock, _) => if renews w.tunnel.scheduler clock k then 0 else w.queued k
      | none => w.queued k) +
    arrivedBytes w.tunnel.tx (w.tunnel.step a).tx k

end Metered

/-- Neither of the modes with a primary, nor redundant mode. -/
def weighted (cfg : SchedulerConfig F) : Bool :=
  !cfg.redundantMode && !cfg.primaryLinkMode && !cfg.followPeerPrimary

/-- The calls that other tasks make: a refresh has the tunnel's configuration, and only
`pick_link` picks. -/
def issued (cfg : SchedulerConfig F) (caps : Fin n → Option F) :
    Action F n → Option (Action F n)
  | .schedule (.refresh links _ peerPrimaryIndex) =>
      some (.schedule (configured caps (.refresh links cfg peerPrimaryIndex)))
  | .schedule (.selectFast _ _) => none
  | .schedule (.select _ _ _) => none
  | a => some a

/-- A run of the tunnel whose links have these caps. -/
def meter (caps : Fin n → Option F) (t : Tunnel F n) (actions : List (Action F n)) :
    Metered F n :=
  (actions.filterMap (issued t.cfg caps)).foldl Metered.step ⟨t, fun _ => 0⟩

/-! ## Direct steps -/

/-- A slot of the queue can be reserved. -/
def hasRoom (sh : Shared n) (k : Fin n) : Bool :=
  !(sh.queues k).closed && decide (0 < (sh.queues k).free)

/-- A frame that is forced to a link with a cap, a link with a cap whose queue has no room for
the frame picked for it, a spill to a link with a cap: none of these. -/
def dispatcherDirect (caps : Fin n → Option F) (sh : Shared n) : Dispatcher n → Bool
  | .offered _ (some f) _ => if h : f < n then !sh.usable ⟨f, h⟩ || (caps ⟨f, h⟩).isNone else true
  | .reserving _ idx _ => (caps idx).isNone || hasRoom sh idx
  | .spilling _ _ (.reserve cand _) _ => (caps cand).isNone || !hasRoom sh cand
  | _ => true

/-- No job is rerouted to a link with a cap. -/
def workerDirect (caps : Fin n → Option F) (sh : Shared n) {i : Fin n} : WorkerPc n i → Bool
  | .rerouting _ (.reserve cand _) _ => (caps cand).isNone || !hasRoom sh cand
  | _ => true

/-- The frame goes where the scheduler has counted it, or no cap is concerned. -/
def direct (caps : Fin n → Option F) (t : Tunnel F n) : Action F n → Bool
  | .pickSlow _ => !t.scheduler.entries.isEmpty
  | .dispatcher _ => dispatcherDirect caps t.tx.shared t.tx.dispatcher
  | .worker i _ => workerDirect caps t.tx.shared (t.tx.workers i).pc
  | _ => true

variable {sh : Shared n} {caps : Fin n → Option F} {s s' : State n} {k : Fin n} {capMbps : F}

omit [Floating F] in
/-- A link with a cap is no link without one. -/
theorem ne_of_isNone {i : Fin n} (hcap : caps k = some capMbps)
    (h : (caps i).isNone = true) : i ≠ k := by
  rintro rfl
  rw [hcap] at h
  cases h

theorem tryReserve_of_hasRoom (h : hasRoom sh k = true) :
    ∃ q, (sh.queues k).tryReserve = .ok q := by
  simp only [hasRoom, Bool.and_eq_true, Bool.not_eq_true', decide_eq_true_eq] at h
  obtain ⟨hopen, hfree⟩ := h
  have hroom : (sh.queues k).jobs.length + (sh.queues k).permits < (sh.queues k).capacity := by
    unfold LinkTx.free at hfree
    omega
  exact ⟨_, by rw [LinkTx.tryReserve, if_neg (by rw [hopen]; exact Bool.false_ne_true),
    dif_pos hroom]⟩

theorem hasRoom_of_tryReserve {q : LinkTx n} (h : (sh.queues k).tryReserve = .ok q) :
    hasRoom sh k = true := by
  obtain ⟨hopen, hroom, -⟩ := LinkTx.tryReserve_eq_ok h
  have hfree : 0 < (sh.queues k).free := by
    unfold LinkTx.free
    omega
  rw [hasRoom, hopen, decide_eq_true hfree]
  rfl

/-! ## The frame in hand -/

/-- The bytes that the dispatcher is about to queue to link `k`. -/
def inHand (k : Fin n) : Dispatcher n → Nat
  | .reserving job idx _ => if idx = k then wireLen job else 0
  | .holding job idx _ => if idx = k then wireLen job else 0
  | .raised job idx => if idx = k then wireLen job else 0
  | _ => 0

/-- What link `k`'s queue takes in a step leaves the dispatcher's hand. -/
def Books (s s' : State n) (k : Fin n) : Prop :=
  arrivedBytes s s' k + inHand k s'.dispatcher = inHand k s.dispatcher

theorem arrivedBytes_of_suffix (h : (s'.shared.queues k).jobs <:+ (s.shared.queues k).jobs) :
    arrivedBytes s s' k = 0 := by
  rw [arrivedBytes, arrived, List.drop_eq_nil_of_le h.length_le]
  rfl

theorem arrivedBytes_of_push {job : Job n}
    (h : (s'.shared.queues k).jobs = (s.shared.queues k).jobs ++ [job]) :
    arrivedBytes s s' k = wireLen job := by
  rw [arrivedBytes, arrived, h, List.drop_left]
  exact Nat.add_zero _

/-- The queue stays as it is, and the hand holds as much as before. -/
theorem Books.of_same (hjobs : (s'.shared.queues k).jobs = (s.shared.queues k).jobs)
    (hhand : inHand k s'.dispatcher = inHand k s.dispatcher) : Books s s' k := by
  rw [Books, arrivedBytes_of_suffix (by rw [hjobs]), hhand, Nat.zero_add]

omit [Floating F] in
/-- Between its choice of a link and the hand-over the dispatcher loses no byte of a link with a
cap and adds none, if its step is direct. -/
theorem Books.of_dispatcher (hcap : caps k = some capMbps) (env : Env)
    (hres : ∀ k, dispatcherHolds k s.dispatcher ≤ (s.shared.queues k).permits)
    (hcopies : s.dispatcher.copies = false) (hpick : ∀ job fec, s.dispatcher ≠ .picking job fec)
    (hdirect : dispatcherDirect caps s.shared s.dispatcher = true) :
    Books s (s.dispatcherStep env) k := by
  obtain ⟨sh', d', hstep, hmove⟩ := s.dispatcherStep_eq env
  rw [hstep]
  obtain ⟨sh, d, ws⟩ := s
  -- Without room the link has no cap, and the frame is not in hand for link `k`.
  have hnoRoom : ∀ {job idx fec e}, d = .reserving job idx fec →
      (sh.queues idx).tryReserve = .error e → inHand k (.reserving job idx fec) = 0 := by
    rintro job idx fec e rfl hq
    rcases Bool.or_eq_true _ _ |>.mp hdirect with hnone | hroom
    · exact if_neg (ne_of_isNone hcap hnone)
    · obtain ⟨q, hok⟩ := tryReserve_of_hasRoom hroom
      rw [hq] at hok
      cases hok
  cases hmove with
  | @forced job fec idx husable =>
    simp only [dispatcherDirect, dif_pos idx.2, husable, Bool.not_true,
      Bool.false_or] at hdirect
    exact Books.of_same rfl (if_neg (ne_of_isNone hcap hdirect))
  | picks idx hpicked => exact absurd rfl (hpick _ _)
  | refuses hpicked => exact absurd rfl (hpick _ _)
  | reserves hq => exact Books.of_same (jobs_setQueue (tryReserve_ok hq).1 k) rfl
  | overflows hspill hq => exact Books.of_same (jobs_count _ _ _ k) (hnoRoom rfl hq).symm
  | drops hq => exact Books.of_same (jobs_count _ _ _ k) (hnoRoom rfl hq).symm
  | closed hq => exact Books.of_same rfl (hnoRoom rfl hq).symm
  | spills hpc => exact Books.of_same (jobs_spill hpc k) rfl
  | givesUp hpc => exact Books.of_same (jobs_spill hpc k) rfl
  | spilled hpc =>
    have hjobs := jobs_spill hpc k
    obtain ⟨cands, q, rfl, hq⟩ := spill_reserved hpc
    simp only [dispatcherDirect, hasRoom_of_tryReserve hq, Bool.not_true,
      Bool.or_false] at hdirect
    exact Books.of_same hjobs (if_neg (ne_of_isNone hcap hdirect))
  | raises => exact Books.of_same (jobs_count _ _ _ k) rfl
  | @handsOver job idx =>
    have hpos : 0 < (sh.queues idx).permits := by
      have hheld := hres idx
      simp only [dispatcherHolds, if_pos] at hheld
      omega
    by_cases hk : idx = k
    · subst hk
      have hpush : ((sh.handOver idx job).queues idx).jobs =
          (sh.queues idx).jobs ++ [job.place idx] := by
        rw [Shared.handOver, TxDepth.setQueue_self, LinkTx.send, dif_pos hpos]
      rw [Books, arrivedBytes_of_push hpush]
      exact (if_pos rfl).symm
    · refine Books.of_same ?_ (if_neg hk).symm
      simp only [State.setDispatcher]
      rw [Shared.handOver, TxDepth.setQueue_other sh _ hk]
  | rests => exact Books.of_same rfl rfl
  | unforced => exact Books.of_same rfl rfl
  | joins => exact Books.of_same rfl rfl
  | _ => cases hcopies

/-- No worker has a slot of a link with a cap. -/
def Uncapped (caps : Fin n → Option F) (s : State n) : Prop :=
  ∀ i job k, (s.workers i).pc.Bound job k → (caps k).isNone = true

omit [Floating F] in
theorem Books.of_worker (hcap : caps k = some capMbps) (h : Uncapped caps s)
    (i : Fin n) (env : Env) : Books s (s.workerStep i env) k := by
  have hhand : inHand k (s.workerStep i env).dispatcher = inHand k s.dispatcher := by
    rw [(workerStep_only s i env).dispatcher]
  rcases workerStep_jobs s i env k with hsuffix | ⟨job, hbound, -⟩
  · rw [Books, arrivedBytes_of_suffix hsuffix, hhand, Nat.zero_add]
  · exact absurd rfl (ne_of_isNone hcap (h i job k hbound))

omit [Floating F] in
/-- A worker comes to a slot only by a reroute. -/
theorem Uncapped.worker (h : Uncapped caps s) (i : Fin n) (env : Env)
    (hdirect : workerDirect caps s.shared (s.workers i).pc = true) :
    Uncapped caps (s.workerStep i env) := by
  intro j job k hbound
  by_cases hj : j = i
  · subst hj
    rcases (workerStep_binds s j env).bound job k hbound with ⟨job', hbefore, -⟩ | ⟨htries, q, hq⟩
    · exact h j job' k hbefore
    · cases htries env with
      | worker hpc =>
        simp only [hpc, workerDirect, hasRoom_of_tryReserve hq, Bool.not_true,
          Bool.or_false] at hdirect
        exact hdirect
  · rw [(workerStep_only s i env).others j hj] at hbound
    exact h j job k hbound

/-- The dispatcher takes up a frame, if it has none. -/
theorem Books.of_offer (k : Fin n) (ptype : PacketType) (plaintext : Bytes) (forced : Option Nat)
    (now : Instant) :
    Books s (s.step (.dispatch ptype plaintext forced now)) k ∧
      Books s (s.step (.dispatchFec plaintext now)) k := by
  constructor
  · simp only [State.step]
    split
    case h_1 hidle => exact Books.of_same rfl (by rw [hidle]; rfl)
    case h_2 => exact Books.of_same rfl rfl
  · simp only [State.step]
    split
    case h_1 hidle => exact Books.of_same rfl (by rw [hidle]; rfl)
    case h_2 => exact Books.of_same rfl rfl

/-! ## The pick -/

/-- Without a primary, no pick means no answer. -/
theorem selectFast_of_no_pick {s : Scheduler F} (hprimary : s.primary = none) {clock : PickClock}
    {frameLen : UInt64} (h : pickOf s (.selectFast clock frameLen : Op F n) = none) :
    s.selectFast n clock frameLen = (s, none) := by
  simp only [pickOf] at h
  split at h
  case isTrue => cases h
  case isFalse hnot =>
    unfold Scheduler.selectFast
    split
    case isTrue => rfl
    case isFalse hn =>
      rw [hprimary]
      cases hentries : s.entries.isEmpty with
      | true => rfl
      | false => exact absurd ⟨hn, hprimary, hentries⟩ hnot

omit [Floating F] in
theorem pickOf_eq_none (s : Scheduler F) {op : Op F n}
    (hfast : ∀ clock frameLen, op ≠ .selectFast clock frameLen)
    (hslow : ∀ links clock frameLen, op ≠ .select links clock frameLen) : pickOf s op = none := by
  unfold pickOf
  split
  case isFalse => rfl
  case isTrue =>
    split
    · exact absurd rfl (hfast _ _)
    · exact absurd rfl (hslow _ _ _)
    · rfl

/-- In weighted mode no refresh sets a primary. -/
theorem refresh_primary {cfg : SchedulerConfig F} (hmode : weighted cfg = true) (s : Scheduler F)
    (links : List (Link F)) (peerPrimaryIndex : Option Nat) :
    (s.refresh links cfg peerPrimaryIndex).primary = none := by
  simp only [weighted, Bool.and_eq_true, Bool.not_eq_true'] at hmode
  obtain ⟨⟨-, hlink⟩, hpeer⟩ := hmode
  simp only [Scheduler.refresh, Scheduler.refreshFromScores, hlink, hpeer]
  rfl

/-! ## The invariant -/

/-- In weighted mode what is recorded for a link with a cap is what was queued to it in the
window, and the frame that is about to be. -/
structure Accounted (caps : Fin n → Option F) (w : Metered F n) : Prop where
  mode : weighted w.tunnel.cfg = true
  sane : TxFate.Sane w.tunnel.tx
  table : Configured caps w.tunnel.scheduler
  primary : w.tunnel.scheduler.primary = none
  copies : w.tunnel.tx.dispatcher.copies = false
  workers : Uncapped caps w.tunnel.tx
  bytes : ∀ k r capMbps, caps k = some capMbps →
    w.tunnel.scheduler.rateLimits.lookup k.val = some r →
      r.bytesInWindow = UInt64.ofNat (w.queued k + inHand k w.tunnel.tx.dispatcher)

theorem sane_step (t : Tunnel F n) (a : Action F n) (h : TxFate.Sane t.tx) :
    TxFate.Sane (t.step a).tx := by
  rcases (Tunnel.step_cases t a).1 with hsame | ⟨b, -, hstep⟩
  · rw [hsame]
    exact h
  · rw [hstep]
    exact TxFate.sane_step h b

section

variable {caps : Fin n → Option F} {w : Metered F n} {a : Action F n}

/-- A step without a pick that leaves the windows alone and keeps the books. -/
theorem Accounted.of_books (h : Accounted caps w) (hpick : pickMade w.tunnel a = none)
    (htable : Configured caps (w.tunnel.step a).scheduler)
    (hprimary : (w.tunnel.step a).scheduler.primary = none)
    (hlimits : (w.tunnel.step a).scheduler.rateLimits = w.tunnel.scheduler.rateLimits)
    (hcopies : (w.tunnel.step a).tx.dispatcher.copies = false)
    (hworkers : Uncapped caps (w.tunnel.step a).tx)
    (hbooks : ∀ k capMbps, caps k = some capMbps → Books w.tunnel.tx (w.tunnel.step a).tx k) :
    Accounted caps (w.step a) where
  mode := by
    rw [Metered.step, Tunnel.step_cfg]
    exact h.mode
  sane := sane_step w.tunnel a h.sane
  table := htable
  primary := hprimary
  copies := hcopies
  workers := hworkers
  bytes := by
    intro k r capMbps hcap hr
    rw [Metered.step, hlimits] at hr
    rw [h.bytes k r capMbps hcap hr, ← hbooks k capMbps hcap, ← Nat.add_assoc]
    simp only [Metered.step, hpick]

/-- A step of the send path alone. -/
theorem Accounted.of_tx (h : Accounted caps w) (hpick : pickMade w.tunnel a = none)
    (hscheduler : (w.tunnel.step a).scheduler = w.tunnel.scheduler)
    (hcopies : (w.tunnel.step a).tx.dispatcher.copies = false)
    (hworkers : Uncapped caps (w.tunnel.step a).tx)
    (hbooks : ∀ k capMbps, caps k = some capMbps → Books w.tunnel.tx (w.tunnel.step a).tx k) :
    Accounted caps (w.step a) := by
  refine h.of_books hpick ?_ ?_ ?_ hcopies hworkers hbooks
  · rw [hscheduler]
    exact h.table
  · rw [hscheduler]
    exact h.primary
  · rw [hscheduler]

/-- After a pick the frame is in hand for the link that was picked. -/
theorem inHand_pick {job : Job n} {fec : Bool} (hd : s.dispatcher = .picking job fec)
    (chosen : Nat) :
    (s.step (.dispatcher (pickEnv (some chosen)))).shared.queues = s.shared.queues ∧
      (s.step (.dispatcher (pickEnv (some chosen)))).workers = s.workers ∧
      (s.step (.dispatcher (pickEnv (some chosen)))).dispatcher.copies = false ∧
      ∀ k, inHand k (s.step (.dispatcher (pickEnv (some chosen)))).dispatcher =
        if chosen = k.val then wireLen job else 0 := by
  obtain ⟨sh, d, ws⟩ := s
  cases hd
  simp only [State.step, State.dispatcherStep, pickEnv]
  split
  case isTrue hlt =>
    refine ⟨rfl, rfl, rfl, fun k => ?_⟩
    simp only [State.setDispatcher, inHand, Fin.ext_iff]
  case isFalse hge =>
    refine ⟨rfl, rfl, rfl, fun k => (if_neg ?_).symm⟩
    rintro rfl
    exact hge k.isLt

/-- `record` adds what the hand then holds. -/
theorem ofNat_hand (bytes : Nat) (job : Job n) (mine : Prop) [Decidable mine] :
    UInt64.ofNat (bytes + if mine then wireLen job else 0) =
      UInt64.ofNat bytes + if mine then SendPath.frameLen job else 0 := by
  rw [UInt64.ofNat_add]
  split <;> rfl

/-- The pick counts the frame that comes into the hand, in the window that it finds or begins. -/
theorem Accounted.pick (h : Accounted caps w) {job : Job n} {fec : Bool}
    (hd : w.tunnel.tx.dispatcher = .picking job fec) {clock : PickClock}
    (hne : w.tunnel.scheduler.entries ≠ [])
    (hmade : pickMade w.tunnel a = some (clock, SendPath.frameLen job))
    (hstep : w.tunnel.step a = w.tunnel.picked
      ((w.tunnel.scheduler.swrrPickUnderCap clock (SendPath.frameLen job)).1,
        some (w.tunnel.scheduler.swrrPickUnderCap clock (SendPath.frameLen job)).2)) :
    Accounted caps (w.step a) := by
  have hspec := pick_spec hne h.table.indices_nodup clock (SendPath.frameLen job)
  have hprimary := (Scheduler.swrrPickUnderCap_spec hne clock (SendPath.frameLen job)).2.1
  obtain ⟨hqueues, hworkers, hcopies, hhand⟩ := inHand_pick hd
    (w.tunnel.scheduler.swrrPickUnderCap clock (SendPath.frameLen job)).2
  have htunnel : (w.step a).tunnel = _ := hstep
  refine ⟨?_, sane_step w.tunnel a h.sane, ?_, ?_, ?_, ?_, fun k r' capMbps hcap hr' => ?_⟩
  · rw [htunnel]
    exact h.mode
  · rw [htunnel]
    exact h.table.of_table hspec.table
  · rw [htunnel]
    exact hprimary.trans h.primary
  · rw [htunnel]
    exact hcopies
  · rw [htunnel]
    intro i job' k hbound
    rw [Tunnel.picked, hworkers] at hbound
    exact h.workers i job' k hbound
  · rw [htunnel] at hr' ⊢
    have harrived : arrivedBytes w.tunnel.tx (w.tunnel.step a).tx k = 0 := by
      rw [hstep]
      apply arrivedBytes_of_suffix
      rw [Tunnel.picked, hqueues]
    have hbefore : inHand k w.tunnel.tx.dispatcher = 0 := by rw [hd]; rfl
    simp only [Metered.step, hmade, harrived, Tunnel.picked, hhand, Nat.add_zero]
    obtain ⟨bytes, hbytes, ⟨hnew, rfl⟩ | ⟨hold, r, hr, rfl⟩⟩ := hspec.window hr'
    · rw [hbytes, if_pos hnew, ofNat_hand]
      rfl
    · rw [hbytes, hold, if_neg Bool.false_ne_true, ofNat_hand, h.bytes k r capMbps hcap hr, hbefore,
        Nat.add_zero]

/-- A call of another task: in weighted mode a refresh sets no primary. -/
theorem Accounted.schedule (h : Accounted caps w) (op : Op F n)
    (hissued : issued w.tunnel.cfg caps (.schedule op) = some a) : Accounted caps (w.step a) := by
  have hbooks : ∀ s : Scheduler F, ∀ k capMbps, caps k = some capMbps →
      Books w.tunnel.tx { w.tunnel with scheduler := s }.tx k :=
    fun _ _ _ _ => Books.of_same rfl rfl
  -- Every call but a refresh and a pick keeps the links and caps of the table.
  have hother : ∀ op' : Op F n, pickOf w.tunnel.scheduler op' = none →
      (w.tunnel.scheduler.step op').primary = w.tunnel.scheduler.primary →
      (∀ links cfg peerPrimaryIndex, op' ≠ .refresh links cfg peerPrimaryIndex) →
      Accounted caps (w.step (.schedule op')) := by
    intro op' hpick hprimary hnot
    obtain ⟨hlimits, hsame | ⟨links, cfg, peerPrimaryIndex, heq⟩⟩ := step_of_no_pick hpick
    · exact h.of_books rfl (h.table.of_table hsame) (hprimary.trans h.primary) hlimits h.copies
        h.workers (hbooks _)
    · exact absurd heq (hnot links cfg peerPrimaryIndex)
  cases op with
  | refresh links cfg peerPrimaryIndex =>
    cases hissued
    refine h.of_books rfl (configured_refresh caps _ links _ peerPrimaryIndex) ?_ ?_ h.copies
      h.workers (hbooks _)
    · exact refresh_primary h.mode _ _ _
    · exact refreshFromScores_rateLimits _ _ _ _
  | updateCongestion now counters =>
    cases hissued
    exact hother _ (pickOf_eq_none _ nofun nofun) rfl nofun
  | updateDelivery now samples =>
    cases hissued
    exact hother _ (pickOf_eq_none _ nofun nofun) rfl nofun
  | noteQueueFull now idx =>
    cases hissued
    exact hother _ (pickOf_eq_none _ nofun nofun) rfl nofun
  | noteSendFailed now idx =>
    cases hissued
    exact hother _ (pickOf_eq_none _ nofun nofun) rfl nofun
  | selectFast clock frameLen => cases hissued
  | select links clock frameLen => cases hissued

/-- A frame is taken up: in weighted mode it is not copied. -/
theorem Accounted.offer (h : Accounted caps w) {b : TxDispatch.Action n}
    (htx : (w.tunnel.step a).tx = w.tunnel.tx.step b)
    (hscheduler : (w.tunnel.step a).scheduler = w.tunnel.scheduler)
    (hpick : pickMade w.tunnel a = none)
    (hb : (∃ ptype plaintext forced now, b = .dispatch ptype plaintext forced now) ∨
      ∃ plaintext now, b = .dispatchFec plaintext now) : Accounted caps (w.step a) := by
  have hcopies : (w.tunnel.tx.step b).dispatcher.copies = false := by
    by_contra hyes
    rcases step_copies (Bool.eq_true_of_not_eq_false hyes) with hbefore | ⟨plaintext, hredundant⟩
    · rw [h.copies] at hbefore
      cases hbefore
    · rcases hb with ⟨_, _, _, _, rfl⟩ | ⟨_, _, rfl⟩
      · cases hredundant
      · cases hredundant
  have hworkers : (w.tunnel.tx.step b).workers = w.tunnel.tx.workers := by
    rcases hb with ⟨_, _, _, _, rfl⟩ | ⟨_, _, rfl⟩
    · simp only [State.step]
      split <;> rfl
    · simp only [State.step]
      split <;> rfl
  refine h.of_tx hpick hscheduler ?_ ?_ ?_
  · rw [htx]
    exact hcopies
  · rw [htx]
    intro i job k hbound
    rw [hworkers] at hbound
    exact h.workers i job k hbound
  · intro k _ _
    rw [htx]
    rcases hb with ⟨ptype, plaintext, forced, now, rfl⟩ | ⟨plaintext, now, rfl⟩
    · exact (Books.of_offer k ptype plaintext forced now).1
    · exact (Books.of_offer k .Data plaintext none now).2

/-- Neither the send path nor the scheduler moves. -/
theorem Accounted.of_same (h : Accounted caps w) (hpick : pickMade w.tunnel a = none)
    (htx : (w.tunnel.step a).tx = w.tunnel.tx)
    (hscheduler : (w.tunnel.step a).scheduler = w.tunnel.scheduler) :
    Accounted caps (w.step a) := by
  refine h.of_tx hpick hscheduler ?_ ?_ ?_
  · rw [htx]
    exact h.copies
  · rw [htx]
    exact h.workers
  · rw [htx]
    exact fun _ _ _ => Books.of_same rfl rfl

/-- `pickOf` is about the one pick that both entry points may make. -/
theorem pickOf_selectFast {s : Scheduler F} {clock : PickClock} {frameLen : UInt64}
    {p : PickClock × UInt64} (h : pickOf s (.selectFast clock frameLen : Op F n) = some p) :
    p = (clock, frameLen) ∧ s.entries ≠ [] := by
  have hp : p = (clock, frameLen) := by
    simp only [pickOf] at h
    split at h
    · exact (Option.some.inj h).symm
    · cases h
  subst hp
  exact ⟨rfl, (step_of_pick h).2⟩

theorem Accounted.pickFast (h : Accounted caps w) (clock : PickClock) :
    Accounted caps (w.step (.pickFast clock)) := by
  by_cases hcase : (∃ job fec, w.tunnel.tx.dispatcher = .picking job fec) ∧ w.tunnel.scores = none
  · obtain ⟨⟨job, fec, hd⟩, hscores⟩ := hcase
    have hmade : pickMade w.tunnel (.pickFast clock) =
        pickOf w.tunnel.scheduler (.selectFast clock (SendPath.frameLen job) : Op F n) := by
      simp only [pickMade, hd, hscores]
    cases hpick : pickOf w.tunnel.scheduler
        (.selectFast clock (SendPath.frameLen job) : Op F n) with
    | some p =>
      obtain ⟨rfl, hne⟩ := pickOf_selectFast hpick
      refine h.pick hd hne (hmade.trans hpick) ?_
      simp only [Tunnel.step, hd, hscores, selectFast_eq (ready_of_pickOf hpick),
        Option.isSome_some, if_true]
    | none =>
      have hstep : w.tunnel.step (.pickFast clock) = { w.tunnel with scores := some [] } := by
        simp only [Tunnel.step, hd, hscores, selectFast_of_no_pick h.primary hpick,
          Option.isSome_none, Bool.false_eq_true, if_false]
      exact h.of_same (hmade.trans hpick) (by rw [hstep]) (by rw [hstep])
  · have hstep : w.tunnel.step (.pickFast clock) = w.tunnel := by
      simp only [Tunnel.step]
      split
      case h_1 hd hscores => exact absurd ⟨⟨_, _, hd⟩, hscores⟩ hcase
      case h_2 => rfl
    have hmade : pickMade w.tunnel (.pickFast clock) = none := by
      simp only [pickMade]
      split
      case h_1 hd hscores => exact absurd ⟨⟨_, _, hd⟩, hscores⟩ hcase
      case h_2 => rfl
    exact h.of_same hmade (by rw [hstep]) (by rw [hstep])

/-- The full choice, from a table that is not empty. -/
theorem Accounted.pickSlow (h : Accounted caps w) (clock : PickClock)
    (hne : w.tunnel.scheduler.entries ≠ []) : Accounted caps (w.step (.pickSlow clock)) := by
  by_cases hcase : (∃ job fec, w.tunnel.tx.dispatcher = .picking job fec) ∧
      ∃ scores, w.tunnel.scores = some scores ∧ scores.length = n
  · obtain ⟨⟨job, fec, hd⟩, scores, hscores, hlen⟩ := hcase
    have hmade : pickMade w.tunnel (.pickSlow clock) =
        pickOf w.tunnel.scheduler (.selectFast clock (SendPath.frameLen job) : Op F n) := by
      simp only [pickMade, hd, hscores, if_pos hlen]
    cases hpick : pickOf w.tunnel.scheduler
        (.selectFast clock (SendPath.frameLen job) : Op F n) with
    | some p =>
      obtain ⟨rfl, -⟩ := pickOf_selectFast hpick
      refine h.pick hd hne (hmade.trans hpick) ?_
      simp only [Tunnel.step, hd, hscores, if_pos hlen, select_eq (ready_of_pickOf hpick) hlen]
    | none =>
      -- Only a tunnel without links has no pick to make here.
      have hn : n = 0 := by
        by_contra hn
        simp only [pickOf] at hpick
        rw [if_pos ⟨hn, h.primary, by simpa using hne⟩] at hpick
        cases hpick
      subst hn
      have hstep : w.tunnel.step (.pickSlow clock) =
          w.tunnel.picked (w.tunnel.scheduler, none) := by
        simp only [Tunnel.step, hd, hscores, if_pos hlen, Scheduler.select,
          if_pos (List.length_eq_zero_iff.mp hlen)]
      have htx : (w.tunnel.step (.pickSlow clock)).tx =
          w.tunnel.tx.setDispatcher (w.tunnel.tx.shared.refuse job) .idle := by
        rw [hstep]
        simp only [Tunnel.picked, State.step, State.dispatcherStep, hd, pickEnv]
      refine h.of_tx (hmade.trans hpick) (by rw [hstep]; rfl) (by rw [htx]; rfl) ?_
        fun k => k.elim0
      rw [htx]
      exact h.workers
  · have hstep : w.tunnel.step (.pickSlow clock) = w.tunnel := by
      simp only [Tunnel.step]
      split
      case h_1 hd hscores =>
        rw [if_neg fun hlen => hcase ⟨⟨_, _, hd⟩, _, hscores, hlen⟩]
      case h_2 => rfl
    have hmade : pickMade w.tunnel (.pickSlow clock) = none := by
      simp only [pickMade]
      split
      case h_1 hd hscores =>
        rw [if_neg fun hlen => hcase ⟨⟨_, _, hd⟩, _, hscores, hlen⟩]
      case h_2 => rfl
    exact h.of_same hmade (by rw [hstep]) (by rw [hstep])

theorem accounted_step (h : Accounted caps w) {a₀ : Action F n}
    (hissued : issued w.tunnel.cfg caps a₀ = some a) (hdirect : direct caps w.tunnel a = true) :
    Accounted caps (w.step a) := by
  cases a₀ with
  | schedule op => exact h.schedule op hissued
  | setLink i view =>
    cases hissued
    exact h.of_tx rfl rfl h.copies h.workers fun _ _ _ => Books.of_same rfl rfl
  | measure i stats =>
    cases hissued
    exact h.of_same rfl rfl rfl
  | setDelivery i ppm =>
    cases hissued
    exact h.of_tx rfl rfl h.copies h.workers fun k _ _ =>
      Books.of_same (jobs_count _ _ _ k) rfl
  | overflow =>
    cases hissued
    exact h.of_tx rfl rfl h.copies h.workers fun _ _ _ => Books.of_same rfl rfl
  | frame plaintext now =>
    cases hissued
    refine h.offer rfl rfl rfl ?_
    have hmode := h.mode
    simp only [weighted, Bool.and_eq_true, Bool.not_eq_true'] at hmode
    simp only [Tunnel.take, hmode.1.1, Bool.false_eq_true, if_false]
    split
    · exact Or.inr ⟨plaintext, now, rfl⟩
    · exact Or.inl ⟨.Data, plaintext, none, now, rfl⟩
  | parity second plaintext forced now =>
    cases hissued
    exact h.offer rfl rfl rfl (Or.inl ⟨Tunnel.parityType second, plaintext, forced, now, rfl⟩)
  | pickFast clock =>
    cases hissued
    exact h.pickFast clock
  | observe =>
    cases hissued
    refine h.of_same rfl ?_ ?_
    · simp only [Tunnel.step]
      repeat' split
      all_goals rfl
    · simp only [Tunnel.step]
      repeat' split
      all_goals rfl
  | pickSlow clock =>
    cases hissued
    exact h.pickSlow clock (by simpa [direct] using hdirect)
  | dispatcher env =>
    cases hissued
    by_cases hpicking : ∃ job fec, w.tunnel.tx.dispatcher = .picking job fec
    · obtain ⟨job, fec, hd⟩ := hpicking
      have hstep : w.tunnel.step (.dispatcher env) = w.tunnel := by
        simp only [Tunnel.step, hd]
      exact h.of_same rfl (by rw [hstep]) (by rw [hstep])
    · have hstep : w.tunnel.step (.dispatcher env) =
          { w.tunnel with tx := w.tunnel.tx.dispatcherStep env } := by
        simp only [Tunnel.step]
        split
        case h_1 hd => exact absurd ⟨_, _, hd⟩ hpicking
        case h_2 => rfl
      refine h.of_tx rfl (by rw [hstep]) ?_ ?_ fun k capMbps hcap => ?_
      · rw [hstep]
        by_contra hyes
        have hbefore := dispatcherStep_copies (Bool.eq_true_of_not_eq_false hyes)
        rw [h.copies] at hbefore
        cases hbefore
      · rw [hstep]
        intro i job k hbound
        rw [dispatcherStep_workers] at hbound
        exact h.workers i job k hbound
      · rw [hstep]
        exact Books.of_dispatcher hcap env (TxDepth.dispatcherHolds_le h.sane.reserved) h.copies
          (fun job fec hd => hpicking ⟨job, fec, hd⟩) hdirect
  | worker i env =>
    cases hissued
    refine h.of_tx rfl rfl ?_ (h.workers.worker i env hdirect) fun k capMbps hcap =>
      Books.of_worker hcap h.workers i env
    have honly := (workerStep_only w.tunnel.tx i env).dispatcher
    exact (congrArg Dispatcher.copies honly).trans h.copies

theorem accounted_run {cfg : SchedulerConfig F} (h : Accounted caps w) (hcfg : w.tunnel.cfg = cfg)
    (actions : List (Action F n)) {history : List (Action F n × Unit)}
    (hdirect : Mealy.Along (Mealy.silent Tunnel.step) (fun _ t a => direct caps t a = true) history
      w.tunnel (actions.filterMap (issued cfg caps))) :
    Accounted caps ((actions.filterMap (issued cfg caps)).foldl Metered.step w) := by
  induction actions generalizing w history with
  | nil => exact h
  | cons a₀ actions ih =>
    cases hissued : issued cfg caps a₀ with
    | none =>
      rw [List.filterMap_cons_none hissued] at hdirect ⊢
      exact ih h hcfg hdirect
    | some a =>
      rw [List.filterMap_cons_some hissued] at hdirect ⊢
      obtain ⟨hstep, hrest⟩ := hdirect
      subst hcfg
      exact ih (accounted_step h hissued hstep) (Tunnel.step_cfg w.tunnel a) hrest

end

omit [Floating F] in
theorem accounted_init {cfg : SchedulerConfig F} (hmode : weighted cfg = true)
    (caps : Fin n → Option F) (links : TxDispatch.Config n) (stats : Fin n → Link F) :
    Accounted caps ⟨Tunnel.init cfg links stats, fun _ => 0⟩ where
  mode := hmode
  sane := TxFate.sane_init _
  table := ⟨List.nodup_nil, fun _ hl => nomatch hl⟩
  primary := rfl
  copies := rfl
  workers := fun _ _ _ hbound => nomatch hbound
  bytes := fun _ _ _ _ hr => nomatch hr

/-! ## Two links with caps -/

/-- Two links that are up, with the queues of the source. -/
def openLinks : TxDispatch.Config 2 where
  links := fun _ => ⟨.Up, false, true⟩
  capacity := fun _ => TxDepth.LINK_TX_QUEUE_CAPACITY
  closed := fun _ => false
  batched := fun _ => false
  allowSpill := true
  sendSeq := 0

def twoTunnel (cfg : SchedulerConfig ℚ) : Tunnel ℚ 2 :=
  Tunnel.init cfg openLinks (twoLinks cfg).stats

/-- Eight megabits for each. -/
def eightMbps : Fin 2 → Option ℚ := fun _ => some 8

/-- FEC with groups of three. -/
def fecScheduler : SchedulerConfig ℚ :=
  { plainScheduler with fecEnabled := true, fecGroupSize := 3 }

def packet : Bytes := List.replicate 20 69

def settled (cfg : SchedulerConfig ℚ) : Action ℚ 2 :=
  .schedule (.refresh (twoTunnel cfg).link cfg none)

/-- A packet up to the queue that the scheduler picks for it. -/
def sendPacket : List (Action ℚ 2) :=
  [.frame packet 0, .dispatcher (pickEnv none), .pickFast stopped] ++
    List.replicate 4 (.dispatcher (pickEnv none))

/-- Worker `i` fetches `m` jobs and sends them. -/
def sendJobs (i : Fin 2) (m : Nat) : List (Action ℚ 2) :=
  List.replicate (m + 3) (.worker i { pickEnv none with available := m })

/-- Worker `i` fetches a job, fails to send it and places it elsewhere. -/
def failSend (i : Fin 2) : List (Action ℚ 2) :=
  List.replicate 13 (.worker i { pickEnv none with available := 1, result := .err false })

/-- The parity share of a group, with both links usable. -/
def sendParity (placement : FecParityPlacement) (group : FecGroup) : List (Action ℚ 2) :=
  .parity false group.p.encode (chooseParityLink placement group.memberLinks [true, true]) 0 ::
    List.replicate 4 (.dispatcher (pickEnv none))

/-- The group of three packets that went to the links 1, 0 and 1. -/
def group : List FecGroup :=
  FecSend.sendAll (.new 3 1) [⟨0, packet, 1⟩, ⟨1, packet, 0⟩, ⟨2, packet, 1⟩]

/-- What the scheduler has recorded for link `k`. -/
def recorded (w : Metered F n) (k : Fin n) : Option UInt64 :=
  (w.tunnel.scheduler.rateLimits.lookup k.val).map (·.bytesInWindow)

/-! ## Recorded and queued -/

/-- In weighted mode, with or without FEC, along any run of direct steps: what is recorded in the
window of a link with a cap is what its queue took since the window began, and the frame that the
dispatcher has for it in hand.  When the dispatcher is idle there is no such frame. -/
theorem recorded_eq_queued {cfg : SchedulerConfig F} (hmode : weighted cfg = true)
    (caps : Fin n → Option F) (links : TxDispatch.Config n) (stats : Fin n → Link F)
    (actions : List (Action F n))
    (hdirect : (Tunnel.init cfg links stats).Along (fun t a => direct caps t a = true)
      (actions.filterMap (issued cfg caps))) (k : Fin n) (capMbps : F)
    (hcap : caps k = some capMbps) (r : RateLimitState)
    (hr : (meter caps (Tunnel.init cfg links stats) actions).tunnel.scheduler.rateLimits.lookup
      k.val = some r) :
    r.bytesInWindow = UInt64.ofNat
      ((meter caps (Tunnel.init cfg links stats) actions).queued k +
        inHand k (meter caps (Tunnel.init cfg links stats) actions).tunnel.tx.dispatcher) ∧
    ((meter caps (Tunnel.init cfg links stats) actions).tunnel.tx.dispatcher = .idle →
      r.bytesInWindow =
        UInt64.ofNat ((meter caps (Tunnel.init cfg links stats) actions).queued k)) := by
  have haccounted : Accounted caps (meter caps (Tunnel.init cfg links stats) actions) :=
    accounted_run (accounted_init hmode caps links stats) rfl actions hdirect
  have hbytes := haccounted.bytes k r capMbps hcap hr
  refine ⟨hbytes, fun hidle => ?_⟩
  rw [hbytes, hidle]
  rfl

/-- A packet that goes where it was picked for. -/
theorem recorded_eq_queued_packet :
    ∃ r, (meter eightMbps (twoTunnel fecScheduler)
        (settled fecScheduler :: sendPacket)).tunnel.scheduler.rateLimits.lookup 1 = some r ∧
      r.bytesInWindow = UInt64.ofNat
        ((meter eightMbps (twoTunnel fecScheduler) (settled fecScheduler :: sendPacket)).queued 1 +
          inHand 1 (meter eightMbps (twoTunnel fecScheduler)
            (settled fecScheduler :: sendPacket)).tunnel.tx.dispatcher) := by
  have hsome : ((meter eightMbps (twoTunnel fecScheduler)
      (settled fecScheduler :: sendPacket)).tunnel.scheduler.rateLimits.lookup 1).isSome := by
    decide +kernel
  obtain ⟨r, hr⟩ := Option.isSome_iff_exists.mp hsome
  exact ⟨r, hr, (recorded_eq_queued (by decide +kernel) eightMbps openLinks
    (twoLinks fecScheduler).stats (settled fecScheduler :: sendPacket) (by decide +kernel) 1 8 rfl r
    hr).1⟩

/-- The parity of a group is queued to the link that carried most of it and counted nowhere; nor
is a job counted that a worker places on the other link. -/
theorem recorded_ne_queued :
    (weighted fecScheduler = true ∧
      let w := meter eightMbps (twoTunnel fecScheduler)
        (settled fecScheduler :: sendPacket ++ sendPacket ++ sendPacket ++ sendJobs 1 2 ++
          sendJobs 0 1 ++ group.flatMap (sendParity .Dominant))
      inHand 1 w.tunnel.tx.dispatcher = 0 ∧ recorded w 1 = some 64 ∧ w.queued 1 = 129) ∧
    (weighted plainScheduler = true ∧
      let w := meter eightMbps (twoTunnel plainScheduler)
        (settled plainScheduler :: sendPacket ++ failSend 1)
      inHand 0 w.tunnel.tx.dispatcher = 0 ∧ recorded w 0 = some 0 ∧ w.queued 0 = 32) := by
  decide +kernel

end Mlvpn.Ports.CapAccounting
