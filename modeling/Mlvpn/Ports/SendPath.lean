import Mlvpn.Ports.SchedulingPick
import Mlvpn.Ports.TxTargets

/-!
# The send path with its scheduler

`outbound_sender`, its dispatcher and the link workers together with the scheduler that
picks links for them.  The send path alone takes the pick from outside; here it is the
answer of `pick_link`, whose steps are the task's: `select_fast` under the scheduler's
lock, then, if that has no answer, one link after the other copied under its lock, and
`select` on the copies.  Other tasks call the scheduler at any time, with whatever
snapshot of the links they took before.

## Main results

* `step_cases`: a step of the tunnel is one of the send path, or leaves it alone.
* `selectScores`: what `select` answers from any copies of the links.
-/

namespace Mlvpn.Ports.SendPath

open Verified Protocol Scheduling Extremum
open ConfigFile (SchedulerConfig)
open FecRecovery (Instant)
open TxDispatch (Dispatcher Env Job LinkView State)

variable {F : Type*} [Floating F] {n : Nat}

structure Tunnel (F : Type*) (n : Nat) where
  cfg : SchedulerConfig F
  tx : State n
  scheduler : Scheduler F
  /-- What scoring reads of a link besides its state and the operator's switch. -/
  stats : Fin n → Link F
  /-- The copies of `snapshot_scores` so far, when `pick_link` makes them. -/
  scores : Option (List (LinkScore F))

inductive Action (F : Type*) (n : Nat) where
  /-- Another task changes a link, its measurements or its published delivery factor. -/
  | setLink (i : Fin n) (view : LinkView)
  | measure (i : Fin n) (stats : Link F)
  | setDelivery (i : Fin n) (ppm : Nat)
  | overflow
  /-- Another task calls the scheduler. -/
  | schedule (op : Op F n)
  /-- `outbound_sender` takes up a frame, or a parity share, P or Q. -/
  | frame (plaintext : Bytes) (now : Instant)
  | parity (second : Bool) (plaintext : Bytes) (forced : Option Nat) (now : Instant)
  /-- `pick_link`: the fast path, one more copy, the full choice. -/
  | pickFast (clock : Scheduler.PickClock)
  | observe
  | pickSlow (clock : Scheduler.PickClock)
  /-- Any other step of the dispatcher, and the steps of the workers. -/
  | dispatcher (env : Env)
  | worker (i : Fin n) (env : Env)

def frameLen (job : Job n) : UInt64 :=
  UInt64.ofNat (TunnelMtu.HEADER_LEN.toNat + job.plaintext.length)

/-- The dispatcher's step on a pick reads nothing but the pick. -/
def pickEnv (picked : Option Nat) : Env where
  picked := picked
  available := 0
  result := .ok true
  results := []
  now := 0

namespace Tunnel

/-- A link as a snapshot sees it. -/
def link (t : Tunnel F n) (i : Fin n) : Link F :=
  { t.stats i with
    state := (t.tx.shared.links i).state
    adminDisabled := (t.tx.shared.links i).adminDisabled }

/-- `pick_link` returns. -/
def picked (t : Tunnel F n) (r : Scheduler F × Option Nat) : Tunnel F n :=
  { t with tx := t.tx.step (.dispatcher (pickEnv r.2)), scheduler := r.1, scores := none }

/-- What `outbound_sender` does with a frame depends on the mode. -/
def take (t : Tunnel F n) (plaintext : Bytes) (now : Instant) : TxDispatch.Action n :=
  if t.cfg.redundantMode then .sendRedundant plaintext
  else if t.cfg.fecEnabled then .dispatchFec plaintext now
  else .dispatch .Data plaintext none now

def parityType (second : Bool) : PacketType := if second then .FecParityQ else .FecParity

def step (t : Tunnel F n) : Action F n → Tunnel F n
  | .setLink i view => { t with tx := t.tx.step (.setLink i view) }
  | .measure i stats => { t with stats := Function.update t.stats i stats }
  | .setDelivery i ppm => { t with tx := t.tx.step (.setDelivery i ppm) }
  | .overflow => { t with tx := t.tx.step .overflow }
  | .schedule op => { t with scheduler := t.scheduler.step op }
  | .frame plaintext now => { t with tx := t.tx.step (t.take plaintext now) }
  | .parity second plaintext forced now =>
      { t with tx := t.tx.step (.dispatch (parityType second) plaintext forced now) }
  | .pickFast clock =>
      match t.tx.dispatcher, t.scores with
      | .picking job _, none =>
          let r := t.scheduler.selectFast n clock (frameLen job)
          if r.2.isSome then t.picked r else { t with scheduler := r.1, scores := some [] }
      | _, _ => t
  | .observe =>
      match t.scores with
      | some scores =>
          if h : scores.length < n then
            let copy := { t.link ⟨scores.length, h⟩ with linkIndex := scores.length }
            { t with scores := some (scores ++ [copy]) }
          else t
      | none => t
  | .pickSlow clock =>
      match t.tx.dispatcher, t.scores with
      | .picking job _, some scores =>
          if scores.length = n then t.picked (t.scheduler.select scores clock (frameLen job))
          else t
      | _, _ => t
  | .dispatcher env =>
      match t.tx.dispatcher with
      | .picking _ _ => t
      | _ => { t with tx := t.tx.step (.dispatcher env) }
  | .worker i env => { t with tx := t.tx.step (.worker i env) }

def run (t : Tunnel F n) (actions : List (Action F n)) : Tunnel F n :=
  Mealy.run (Mealy.silent step) t actions

/-- Spilling is off in the two modes that mean one link and no other. -/
def init (cfg : SchedulerConfig F) (links : TxDispatch.Config n) (stats : Fin n → Link F) :
    Tunnel F n where
  cfg := cfg
  tx := State.init { links with allowSpill := !(cfg.primaryLinkMode || cfg.followPeerPrimary) }
  scheduler := .new
  stats := stats
  scores := none

/-- Every step of the run is taken under `G`. -/
abbrev Along (G : Tunnel F n → Action F n → Prop) (t : Tunnel F n) (actions : List (Action F n)) :
    Prop :=
  Mealy.Along (Mealy.silent step) (fun _ => G) [] t actions

/-! ## The send path inside -/

/-- `pick_link` answers `r` in this step. -/
inductive Picks (t : Tunnel F n) : Action F n → Scheduler F × Option Nat → Prop where
  | fast {clock : Scheduler.PickClock} {job : Job n} {fec : Bool}
      (hd : t.tx.dispatcher = .picking job fec) :
      Picks t (.pickFast clock) (t.scheduler.selectFast n clock (frameLen job))
  | slow {clock : Scheduler.PickClock} {job : Job n} {fec : Bool} {scores : List (LinkScore F)}
      (hd : t.tx.dispatcher = .picking job fec) (hscores : t.scores = some scores)
      (hlen : scores.length = n) :
      Picks t (.pickSlow clock) (t.scheduler.select scores clock (frameLen job))

/-- The step of the send path that a step of the tunnel is. -/
inductive Projects (t : Tunnel F n) : Action F n → TxDispatch.Action n → Prop where
  | setLink (i : Fin n) (view : LinkView) : Projects t (.setLink i view) (.setLink i view)
  | setDelivery (i : Fin n) (ppm : Nat) : Projects t (.setDelivery i ppm) (.setDelivery i ppm)
  | overflow : Projects t .overflow .overflow
  | frame (plaintext : Bytes) (now : Instant) :
      Projects t (.frame plaintext now) (t.take plaintext now)
  | parity (second : Bool) (plaintext : Bytes) (forced : Option Nat) (now : Instant) :
      Projects t (.parity second plaintext forced now)
        (.dispatch (parityType second) plaintext forced now)
  | pick {a : Action F n} {r : Scheduler F × Option Nat} (h : Picks t a r) :
      Projects t a (.dispatcher (pickEnv r.2))
  | dispatcher (env : Env) (h : ∀ job fec, t.tx.dispatcher ≠ .picking job fec) :
      Projects t (.dispatcher env) (.dispatcher env)
  | worker (i : Fin n) (env : Env) : Projects t (.worker i env) (.worker i env)

/-- What a step of the send path says of the tunnel's step that it is. -/
def Reflects (t : Tunnel F n) (a : Action F n) : TxDispatch.Action n → Prop
  -- The dispatcher's own steps are those with which `pick_link` answers, and the others.
  | .dispatcher env => (∃ r, Picks t a r ∧ env = pickEnv r.2) ∨
      a = .dispatcher env ∧ ∀ job fec, t.tx.dispatcher ≠ .picking job fec
  | .worker i env => a = .worker i env
  | .setLink i view => a = .setLink i view
  -- A data frame is never forced to a link.
  | .dispatch ptype _ forced _ => ptype = .Data → forced = none
  | .sendRedundant _ => t.cfg.redundantMode = true
  | _ => True

variable {t : Tunnel F n} {a : Action F n} {i : Fin n} {env : Env} {plaintext : Bytes}

theorem Projects.reflects {b : TxDispatch.Action n} (h : Projects t a b) : Reflects t a b := by
  cases h with
  | setLink i view => rfl
  | setDelivery i ppm => trivial
  | overflow => trivial
  | frame plaintext now =>
    simp only [take]
    split
    case isTrue hmode => exact hmode
    case isFalse =>
      split
      · trivial
      · exact fun _ => rfl
  | parity second plaintext forced now =>
    cases second with
    | false => exact fun htype => (nomatch htype)
    | true => exact fun htype => (nomatch htype)
  | pick hpick => exact .inl ⟨_, hpick, rfl⟩
  | dispatcher env hd => exact .inr ⟨rfl, hd⟩
  | worker i env => rfl

theorem Projects.of_dispatcher (h : Projects t a (.dispatcher env)) :
    (∃ r, Picks t a r ∧ env = pickEnv r.2) ∨
      a = .dispatcher env ∧ ∀ job fec, t.tx.dispatcher ≠ .picking job fec :=
  h.reflects

/-- Outside `pick_link` a step of the dispatcher is just that. -/
theorem Projects.eq_dispatcher (h : Projects t a (.dispatcher env))
    (hd : ∀ job fec, t.tx.dispatcher ≠ .picking job fec) : a = .dispatcher env := by
  rcases h.of_dispatcher with ⟨r, hpick, -⟩ | ⟨ha, -⟩
  · cases hpick with
    | fast hpicking => exact absurd hpicking (hd _ _)
    | slow hpicking => exact absurd hpicking (hd _ _)
  · exact ha

theorem Projects.of_worker (h : Projects t a (.worker i env)) : a = .worker i env :=
  h.reflects

theorem Projects.of_setLink {view : LinkView} (h : Projects t a (.setLink i view)) :
    a = .setLink i view :=
  h.reflects

theorem Projects.of_dispatch {forced : Option Nat} {now : Instant}
    (h : Projects t a (.dispatch .Data plaintext forced now)) : forced = none :=
  h.reflects rfl

theorem Projects.of_sendRedundant (h : Projects t a (.sendRedundant plaintext)) :
    t.cfg.redundantMode = true :=
  h.reflects

/-- What the tunnel's steps do to the send path and to the scheduler: another task's call, or a
pick. -/
theorem step_cases (t : Tunnel F n) (a : Action F n) :
    ((t.step a).tx = t.tx ∨ ∃ b, Projects t a b ∧ (t.step a).tx = t.tx.step b) ∧
      ((t.step a).scheduler = t.scheduler ∨
        (∃ op, a = .schedule op ∧ (t.step a).scheduler = t.scheduler.step op) ∨
        ∃ r, Picks t a r ∧ (t.step a).scheduler = r.1) := by
  cases a with
  | setLink i view => exact ⟨.inr ⟨_, .setLink i view, rfl⟩, .inl rfl⟩
  | measure i stats => exact ⟨.inl rfl, .inl rfl⟩
  | setDelivery i ppm => exact ⟨.inr ⟨_, .setDelivery i ppm, rfl⟩, .inl rfl⟩
  | overflow => exact ⟨.inr ⟨_, .overflow, rfl⟩, .inl rfl⟩
  | schedule op => exact ⟨.inl rfl, .inr (.inl ⟨op, rfl, rfl⟩)⟩
  | frame plaintext now => exact ⟨.inr ⟨_, .frame plaintext now, rfl⟩, .inl rfl⟩
  | parity second plaintext forced now =>
    exact ⟨.inr ⟨_, .parity second plaintext forced now, rfl⟩, .inl rfl⟩
  | pickFast clock =>
    simp only [step]
    split
    case h_1 job fec hd hscores =>
      split
      · exact ⟨.inr ⟨_, .pick (.fast hd), rfl⟩, .inr (.inr ⟨_, .fast hd, rfl⟩)⟩
      · exact ⟨.inl rfl, .inr (.inr ⟨_, .fast hd, rfl⟩)⟩
    · exact ⟨.inl rfl, .inl rfl⟩
  | observe =>
    simp only [step]
    split
    · split <;> exact ⟨.inl rfl, .inl rfl⟩
    · exact ⟨.inl rfl, .inl rfl⟩
  | pickSlow clock =>
    simp only [step]
    split
    case h_1 job fec scores hd hscores =>
      split
      case isTrue hlen =>
        exact ⟨.inr ⟨_, .pick (.slow hd hscores hlen), rfl⟩,
          .inr (.inr ⟨_, .slow hd hscores hlen, rfl⟩)⟩
      · exact ⟨.inl rfl, .inl rfl⟩
    · exact ⟨.inl rfl, .inl rfl⟩
  | dispatcher env =>
    simp only [step]
    split
    · exact ⟨.inl rfl, .inl rfl⟩
    case h_2 hd => exact ⟨.inr ⟨_, .dispatcher env hd, rfl⟩, .inl rfl⟩
  | worker i env => exact ⟨.inr ⟨_, .worker i env, rfl⟩, .inl rfl⟩

theorem step_cfg (t : Tunnel F n) (a : Action F n) : (t.step a).cfg = t.cfg := by
  cases a with
  | setLink | measure | setDelivery | overflow | schedule | frame | parity | worker => rfl
  | pickFast clock =>
    simp only [step]
    repeat' split
    all_goals rfl
  | observe =>
    simp only [step]
    repeat' split
    all_goals rfl
  | pickSlow clock =>
    simp only [step]
    repeat' split
    all_goals rfl
  | dispatcher env =>
    simp only [step]
    repeat' split
    all_goals rfl

/-- Only other tasks change a link. -/
theorem step_links (t : Tunnel F n) (a : Action F n) :
    (t.step a).tx.shared.links = t.tx.shared.links ∨
      ∃ i view, a = .setLink i view ∧
        (t.step a).tx.shared.links = Function.update t.tx.shared.links i view := by
  rcases (step_cases t a).1 with hsame | ⟨b, hproj, hstep⟩
  · exact .inl (by rw [hsame])
  · rw [hstep]
    rcases TxDispatch.step_links t.tx b with hlinks | ⟨i, view, rfl, hlinks⟩
    · exact .inl hlinks
    · exact .inr ⟨i, view, hproj.of_setLink, hlinks⟩

/-- A run of the tunnel is, for the send path, a run of its own. -/
theorem exists_run_tx (t : Tunnel F n) (actions : List (Action F n)) :
    ∃ steps, (t.run actions).tx = t.tx.run steps := by
  induction actions generalizing t with
  | nil => exact ⟨[], rfl⟩
  | cons a actions ih =>
    obtain ⟨steps, hsteps⟩ := ih (t.step a)
    rcases (step_cases t a).1 with hsame | ⟨b, -, hstep⟩
    · exact ⟨steps, hsteps.trans (by rw [hsame])⟩
    · exact ⟨b :: steps, hsteps.trans (by rw [hstep]; rfl)⟩

end Tunnel

/-- The send path of a tunnel is sane after every run. -/
theorem sane_tx (cfg : SchedulerConfig F) (links : TxDispatch.Config n) (stats : Fin n → Link F)
    (actions : List (Action F n)) : TxFate.Sane ((Tunnel.init cfg links stats).run actions).tx := by
  obtain ⟨steps, hsteps⟩ := Tunnel.exists_run_tx (Tunnel.init cfg links stats) actions
  rw [hsteps]
  exact TxFate.sane_run (TxFate.sane_init _) steps

/-! ## What the scheduler answers -/

/-- From any copies of the links: a link that scored at the last refresh, or, with no
primary and an empty table, the least bad of the copies. -/
theorem selectScores {last : List Nat} {s : Scheduler F} (h : Inv n last s)
    (scores : List (LinkScore F)) (clock : Scheduler.PickClock) (frameLen : UInt64) :
    Inv n last (s.select scores clock frameLen).1 ∧
      ∀ idx, (s.select scores clock frameLen).2 = some idx → idx ∈ last ∨
        s.primary = none ∧ s.entries = [] ∧
          (minBy Scheduler.leastBad scores).map (·.linkIndex) = some idx := by
  unfold Scheduler.select
  split
  · exact ⟨h, fun _ hidx => (nomatch hidx)⟩
  · split
    case h_1 primary hprimary =>
      refine ⟨h, fun idx hidx => .inl ?_⟩
      cases hidx
      exact h.primary _ hprimary
    case h_2 hprimary =>
      cases hempty : s.entries.isEmpty with
      | true =>
        rw [if_pos rfl]
        exact ⟨h, fun idx hidx => .inr ⟨hprimary, by simpa using hempty, hidx⟩⟩
      | false =>
        obtain ⟨hinv, hmem⟩ := h.pick hempty clock frameLen
        refine ⟨hinv, fun idx hidx => .inl ?_⟩
        cases hidx
        exact hmem

/-! ## A tunnel with two links -/

def plainScheduler : SchedulerConfig ℚ :=
  { (ConfigFile.serverWith { mtu := none, address6 := none }).scheduler with fecEnabled := false }

/-- Two links that are up, with a few misses and no other difference. -/
def twoLinks (cfg : SchedulerConfig ℚ) : Tunnel ℚ 2 :=
  Tunnel.init cfg
    { links := fun _ => ⟨.Up, false, true⟩
      capacity := fun _ => 4
      closed := fun _ => false
      batched := fun _ => false
      allowSpill := true
      sendSeq := 0 }
    fun i =>
      { state := .Up, adminDisabled := false, weight := 1, bandwidthCapMbps := none
        rttMs := some 40, jitterMs := none, lossRate := none, rxThroughputMbps := none
        activeBandwidthMbps := none, consecutiveMisses := UInt32.ofNat (3 + i.1) }

/-- The links change to these states, then the scheduler is refreshed. -/
def settle (cfg : SchedulerConfig ℚ) (view : Fin 2 → LinkView) : List (Action ℚ 2) :=
  let changes := [⟨0, Nat.two_pos⟩, ⟨1, Nat.one_lt_two⟩].map fun i : Fin 2 => .setLink i (view i)
  changes ++ [.schedule (.refresh ((twoLinks cfg).run changes).link cfg none)]

/-- Every clock reading is zero. -/
def stopped : Scheduler.PickClock := ⟨fun _ => 0, fun _ => 0, fun _ => 0, 0⟩

end Mlvpn.Ports.SendPath
