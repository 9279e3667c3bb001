import Mlvpn.Ports.VersionInfo
import Mlvpn.Verified.Mealy

/-!
# What is known of the peer

Port of the `VersionInfo` arm of `tunnel::handle_incoming`.  Every link has a
receiver task of its own, and all of them store what a frame says into the same
four cells, each behind a lock of its own.  A task holds one lock at a time, so the
stores of two frames may interleave in any way; nothing compares header seqs.

A run is a list of actions: a task takes a frame from its socket, or makes its next
store.  The log of a run says which frames were taken and which stores were made, in
their order.

## Main results

* `inv_run`: a cell holds what was stored there last, and a frame that was taken has
  been stored everywhere or still will be.
* `peer_info_newest_iff`: once the tasks are idle, the cells are those of the newest
  frame exactly when the last store to each of them says the same as that frame.
-/

namespace Mlvpn.Ports.VersionExchange

open Verified Protocol VersionInfo

/-- `PeerVersion`, `PeerMtu`, `PeerLiveMtu` and `PeerPrimaryLink`. -/
structure PeerInfo where
  peerVersion : Option String
  peerMtu : Option UInt16
  peerLiveMtu : Option UInt16
  peerPrimaryLink : Option String
deriving Repr, DecidableEq

inductive Cell where
  | peerVersion
  | peerMtu
  | peerLiveMtu
  | peerPrimaryLink
deriving Repr, DecidableEq

/-- A `VersionInfo` frame as a link's session yields it. -/
structure Frame where
  seq : UInt64
  plaintext : Bytes
deriving Repr, DecidableEq

/-- The frame `send_version_info` builds around a payload. -/
def sendVersionInfo (nextSendSeq : UInt64) (payload : VersionInfoPayload) : Frame where
  seq := nextSendSeq
  plaintext := payload.encode

/-- Where a receiver task is in the arm. -/
inductive Pc where
  | idle
  | storing (frame : Frame) (payload : VersionInfoPayload) (cell : Cell)
deriving Repr, DecidableEq

structure Receivers (n : Nat) where
  info : PeerInfo
  tasks : Fin n → Pc

def Receivers.new (n : Nat) : Receivers n where
  info := ⟨none, none, none, none⟩
  tasks := fun _ => .idle

inductive Action (n : Nat) where
  | receive (link : Fin n) (frame : Frame)
  | advance (link : Fin n)
deriving Repr, DecidableEq

inductive Event where
  | took (frame : Frame) (payload : VersionInfoPayload)
  | stored (cell : Cell) (frame : Frame) (payload : VersionInfoPayload)
deriving Repr, DecidableEq

/-- The store after this one. -/
def Pc.after (frame : Frame) (payload : VersionInfoPayload) : Cell → Pc
  | .peerVersion => .storing frame payload .peerMtu
  | .peerMtu => .storing frame payload .peerLiveMtu
  | .peerLiveMtu => .storing frame payload .peerPrimaryLink
  | .peerPrimaryLink => .idle

section

variable (replaced : Bytes → String) {n : Nat}

/-- All that a payload says. -/
def PeerInfo.of (payload : VersionInfoPayload) : PeerInfo where
  peerVersion := some (payload.versionStr replaced)
  peerMtu := some payload.tunnelMtu
  -- 0 comes from a peer that predates the field
  peerLiveMtu := if payload.liveTunnelMtu ≠ 0 then some payload.liveTunnelMtu else none
  peerPrimaryLink := payload.primaryLinkNameStr replaced

def PeerInfo.store (info : PeerInfo) (payload : VersionInfoPayload) : Cell → PeerInfo
  | .peerVersion => { info with peerVersion := (PeerInfo.of replaced payload).peerVersion }
  | .peerMtu => { info with peerMtu := (PeerInfo.of replaced payload).peerMtu }
  | .peerLiveMtu => { info with peerLiveMtu := (PeerInfo.of replaced payload).peerLiveMtu }
  | .peerPrimaryLink =>
      { info with peerPrimaryLink := (PeerInfo.of replaced payload).peerPrimaryLink }

def step (s : Receivers n) : Action n → Receivers n × Option Event
  | .receive link frame =>
      match s.tasks link, VersionInfoPayload.decode frame.plaintext with
      | .idle, .ok payload =>
          ({ s with
              tasks := Function.update s.tasks link (.storing frame payload .peerVersion) },
            some (.took frame payload))
      -- "failed to decode VersionInfo payload"
      | .idle, .error _ => (s, none)
      -- the task is still at an earlier frame, and this one waits in the socket
      | .storing _ _ _, _ => (s, none)
  | .advance link =>
      match s.tasks link with
      | .idle => (s, none)
      | .storing frame payload cell =>
          ({ info := s.info.store replaced payload cell
             tasks := Function.update s.tasks link (Pc.after frame payload cell) },
            some (.stored cell frame payload))

/-! ## What a run did -/

abbrev Log (n : Nat) := List (Action n × Option Event)

/-- The frames taken, with their payloads. -/
def received (log : Log n) : List (Frame × VersionInfoPayload) :=
  log.filterMap fun entry =>
    match entry.2 with
    | some (.took frame payload) => some (frame, payload)
    | _ => none

/-- The frames stored in one cell, in the order of the stores. -/
def stores (cell : Cell) (log : Log n) : List (Frame × VersionInfoPayload) :=
  log.filterMap fun entry =>
    match entry.2 with
    | some (.stored target frame payload) => if target = cell then some (frame, payload) else none
    | _ => none

/-- Among the frames taken, this one has the highest seq. -/
structure Newest (log : Log n) (frame : Frame) (payload : VersionInfoPayload) : Prop where
  taken : (frame, payload) ∈ received log
  seq_le : ∀ other ∈ received log, other.1.seq ≤ frame.seq

variable {cell other : Cell}

section

variable {log : Log n} {a : Action n} {frame : Frame} {payload : VersionInfoPayload}

theorem received_quiet : received (log ++ [(a, none)]) = received log := by
  simp [received]

theorem received_took :
    received (log ++ [(a, some (.took frame payload))]) = received log ++ [(frame, payload)] := by
  simp [received]

theorem received_stored :
    received (log ++ [(a, some (.stored cell frame payload))]) = received log := by
  simp [received]

theorem stores_quiet : stores cell (log ++ [(a, none)]) = stores cell log := by
  simp [stores]

theorem stores_took : stores cell (log ++ [(a, some (.took frame payload))]) = stores cell log := by
  simp [stores]

theorem stores_stored_self :
    stores cell (log ++ [(a, some (.stored cell frame payload))]) =
      stores cell log ++ [(frame, payload)] := by
  simp [stores]

theorem stores_stored_of_ne (h : other ≠ cell) :
    stores other (log ++ [(a, some (.stored cell frame payload))]) = stores other log := by
  simp [stores, Ne.symm h]

end

/-! ## One cell -/

/-- Both say the same in this cell. -/
def SameAt (a b : PeerInfo) : Cell → Prop
  | .peerVersion => a.peerVersion = b.peerVersion
  | .peerMtu => a.peerMtu = b.peerMtu
  | .peerLiveMtu => a.peerLiveMtu = b.peerLiveMtu
  | .peerPrimaryLink => a.peerPrimaryLink = b.peerPrimaryLink

theorem SameAt.symm {a b : PeerInfo} (h : SameAt a b cell) : SameAt b a cell := by
  cases cell <;> exact Eq.symm h

theorem SameAt.trans {a b c : PeerInfo} (hab : SameAt a b cell)
    (hbc : SameAt b c cell) : SameAt a c cell := by
  cases cell <;> exact Eq.trans hab hbc

theorem sameAt_store_self (info : PeerInfo) (payload : VersionInfoPayload) (cell : Cell) :
    SameAt (info.store replaced payload cell) (PeerInfo.of replaced payload) cell := by
  cases cell <;> rfl

theorem sameAt_store_of_ne (info : PeerInfo) (payload : VersionInfoPayload)
    (h : other ≠ cell) : SameAt (info.store replaced payload cell) info other := by
  cases cell <;> cases other <;> first | rfl | exact absurd rfl h

/-- What a cell holds after these stores to it. -/
def lastStored (entries : List (Frame × VersionInfoPayload)) : PeerInfo :=
  (entries.getLast?).elim ⟨none, none, none, none⟩ fun last => PeerInfo.of replaced last.2

/-! ## The invariant -/

def Cell.rank : Cell → Nat
  | .peerVersion => 0
  | .peerMtu => 1
  | .peerLiveMtu => 2
  | .peerPrimaryLink => 3

/-- A task has yet to store this frame in this cell. -/
def Due (tasks : Fin n → Pc) (frame : Frame) (payload : VersionInfoPayload) (cell : Cell) : Prop :=
  ∃ link current, tasks link = .storing frame payload current ∧ current.rank ≤ cell.rank

structure Inv (log : Log n) (s : Receivers n) : Prop where
  held : ∀ cell, SameAt s.info (lastStored replaced (stores cell log)) cell
  stored : ∀ frame payload, (frame, payload) ∈ received log → ∀ cell,
    (frame, payload) ∈ stores cell log ∨ Due s.tasks frame payload cell

theorem inv_new : Inv replaced [] (Receivers.new n) where
  held := fun cell => by cases cell <;> rfl
  stored := fun _ _ h => nomatch h

/-- The three things that can happen. -/
theorem step_cases (s : Receivers n) (a : Action n) :
    step replaced s a = (s, none) ∨
    (∃ link frame payload, s.tasks link = .idle ∧
      step replaced s a =
        ({ s with
            tasks := Function.update s.tasks link (.storing frame payload .peerVersion) },
          some (.took frame payload))) ∨
    ∃ link frame payload cell, s.tasks link = .storing frame payload cell ∧
      step replaced s a =
        ({ info := s.info.store replaced payload cell
           tasks := Function.update s.tasks link (Pc.after frame payload cell) },
          some (.stored cell frame payload)) := by
  cases a with
  | receive link frame =>
    rcases htask : s.tasks link with _ | ⟨_, _, _⟩
    · rcases hdecode : VersionInfoPayload.decode frame.plaintext with e | payload
      · exact .inl (by simp only [step, htask, hdecode])
      · exact .inr (.inl ⟨link, frame, payload, htask, by simp only [step, htask, hdecode]⟩)
    · exact .inl (by simp only [step, htask])
  | advance link =>
    rcases htask : s.tasks link with _ | ⟨frame, payload, cell⟩
    · exact .inl (by simp only [step, htask])
    · exact .inr (.inr ⟨link, frame, payload, cell, htask, by simp only [step, htask]⟩)

/-- A task other than the one that moved has its stores before it still. -/
theorem Due.update {tasks : Fin n → Pc} {frame : Frame} {payload : VersionInfoPayload}
    {link : Fin n} {pc : Pc} (h : Due tasks frame payload cell)
    (hmoved : ∀ current, tasks link = .storing frame payload current →
      current.rank ≤ cell.rank → Due (Function.update tasks link pc) frame payload cell) :
    Due (Function.update tasks link pc) frame payload cell := by
  obtain ⟨other, current, htask, hrank⟩ := h
  by_cases hother : other = link
  · subst hother
    exact hmoved current htask hrank
  · exact ⟨other, current, by rw [Function.update_of_ne hother, htask], hrank⟩

/-- After its store to `cell` a task goes on to the cells of higher rank. -/
theorem due_after {tasks : Fin n → Pc} (link : Fin n) (frame : Frame) (payload : VersionInfoPayload)
    (hrank : cell.rank ≤ other.rank) (hne : other ≠ cell) :
    Due (Function.update tasks link (Pc.after frame payload cell)) frame payload other := by
  have hsucc : ∃ current, Pc.after frame payload cell = .storing frame payload current ∧
      current.rank ≤ other.rank := by
    cases cell <;> cases other <;>
      first
        | exact absurd rfl hne
        | exact absurd hrank (by decide)
        | exact ⟨_, rfl, by decide⟩
  obtain ⟨current, hpc, hle⟩ := hsucc
  exact ⟨link, current, by rw [Function.update_self, hpc], hle⟩

theorem inv_step {log : Log n} {s : Receivers n} (h : Inv replaced log s) (a : Action n) :
    Inv replaced (log ++ [(a, (step replaced s a).2)]) (step replaced s a).1 := by
  rcases step_cases replaced s a with hstep | ⟨link, frame, payload, htask, hstep⟩ |
    ⟨link, frame, payload, cell, htask, hstep⟩
  case inl =>
    rw [hstep]
    exact ⟨fun cell => by rw [stores_quiet]; exact h.held cell, fun f p hmem cell => by
      rw [received_quiet] at hmem
      rw [stores_quiet]
      exact h.stored f p hmem cell⟩
  case inr.inl =>
    rw [hstep]
    refine ⟨fun cell => by rw [stores_took]; exact h.held cell, fun f p hmem cell => ?_⟩
    rw [received_took, List.mem_append, List.mem_singleton] at hmem
    rw [stores_took]
    rcases hmem with hold | hnew
    · refine (h.stored f p hold cell).imp_right fun hdue => hdue.update fun current hidle => ?_
      rw [htask] at hidle
      exact nomatch hidle
    · cases hnew
      exact .inr ⟨link, .peerVersion, Function.update_self .., Nat.zero_le _⟩
  case inr.inr =>
    rw [hstep]
    constructor
    case held =>
      intro other
      by_cases hother : other = cell
      · subst hother
        have hlast : lastStored replaced
            (stores other (log ++ [(a, some (.stored other frame payload))])) =
              PeerInfo.of replaced payload := by
          rw [stores_stored_self, lastStored, List.getLast?_concat]
          rfl
        rw [hlast]
        exact sameAt_store_self replaced s.info payload other
      · rw [stores_stored_of_ne hother]
        exact (sameAt_store_of_ne replaced s.info payload hother).trans (h.held other)
    case stored =>
      intro f p hmem other
      rw [received_stored] at hmem
      by_cases hother : other = cell
      · subst hother
        rw [stores_stored_self, List.mem_append, List.mem_singleton]
        rcases h.stored f p hmem other with hdone | hdue
        · exact .inl (.inl hdone)
        · by_cases hsame : (f, p) = (frame, payload)
          · exact .inl (.inr hsame)
          · refine .inr (hdue.update fun current hcurrent => ?_)
            rw [htask] at hcurrent
            cases hcurrent
            exact absurd rfl hsame
      · rw [stores_stored_of_ne hother]
        refine (h.stored f p hmem other).imp_right fun hdue =>
          hdue.update fun current hcurrent hrank => ?_
        rw [htask] at hcurrent
        cases hcurrent
        exact due_after link frame payload hrank hother

/-- The state after a run from the start. -/
def run (actions : List (Action n)) : Receivers n :=
  Mealy.run (step replaced) (Receivers.new n) actions

def log (actions : List (Action n)) : Log n :=
  Mealy.log (step replaced) (Receivers.new n) actions

theorem inv_run (actions : List (Action n)) :
    Inv replaced (log replaced actions) (run replaced actions) := by
  have hguard : Mealy.Along (step replaced) (fun _ _ _ => True) [] (Receivers.new n) actions :=
    Mealy.along_of_forall (P := fun _ => True) (fun _ _ _ _ => trivial) fun _ _ => trivial
  have := Mealy.invariant_along (I := Inv replaced)
    (fun log s a hinv _ => inv_step replaced hinv a) (inv_new replaced) hguard
  exact this

/-! ## The newest frame -/

/-- Once every task is idle, each cell has been stored to if any frame was taken. -/
theorem exists_last_store {actions : List (Action n)}
    (hidle : ∀ link, (run replaced actions).tasks link = .idle) {frame : Frame}
    {payload : VersionInfoPayload} (htaken : (frame, payload) ∈ received (log replaced actions))
    (cell : Cell) : ∃ last, (stores cell (log replaced actions)).getLast? = some last := by
  rcases (inv_run replaced actions).stored frame payload htaken cell with hdone | hdue
  · exact ⟨_, List.getLast?_eq_some_getLast (List.ne_nil_of_mem hdone)⟩
  · obtain ⟨link, current, htask, -⟩ := hdue
    rw [hidle link] at htask
    exact nomatch htask

/-- The cells reflect the newest frame taken exactly when, for the two MTUs and the
primary link, the frame stored last in the cell says the same there as the newest
frame does. -/
theorem peer_info_newest_iff (actions : List (Action n))
    (hidle : ∀ link, (run replaced actions).tasks link = .idle) {newest : Frame}
    {payload : VersionInfoPayload} (hnewest : Newest (log replaced actions) newest payload) :
    ((run replaced actions).info.peerMtu = some payload.tunnelMtu ∧
      (run replaced actions).info.peerLiveMtu =
        (if payload.liveTunnelMtu ≠ 0 then some payload.liveTunnelMtu else none) ∧
      (run replaced actions).info.peerPrimaryLink = payload.primaryLinkNameStr replaced) ↔
    ∀ cell, cell ≠ .peerVersion → ∃ last,
      (stores cell (log replaced actions)).getLast? = some last ∧
        SameAt (PeerInfo.of replaced last.2) (PeerInfo.of replaced payload) cell := by
  have hcell : ∀ cell, SameAt (run replaced actions).info (PeerInfo.of replaced payload) cell ↔
      ∃ last, (stores cell (log replaced actions)).getLast? = some last ∧
        SameAt (PeerInfo.of replaced last.2) (PeerInfo.of replaced payload) cell := by
    intro cell
    obtain ⟨last, hlast⟩ := exists_last_store replaced hidle hnewest.taken cell
    have hheld := (inv_run replaced actions).held cell
    rw [lastStored, hlast] at hheld
    constructor
    · intro hsame
      exact ⟨last, hlast, hheld.symm.trans hsame⟩
    · rintro ⟨other, hother, hsame⟩
      rw [hlast] at hother
      cases hother
      exact hheld.trans hsame
  constructor
  · rintro ⟨hmtu, hlive, hprimary⟩ cell hne
    refine (hcell cell).mp ?_
    cases cell with
    | peerVersion => exact absurd rfl hne
    | peerMtu => exact hmtu
    | peerLiveMtu => exact hlive
    | peerPrimaryLink => exact hprimary
  · intro hlast
    exact ⟨(hcell .peerMtu).mpr (hlast .peerMtu nofun),
      (hcell .peerLiveMtu).mpr (hlast .peerLiveMtu nofun),
      (hcell .peerPrimaryLink).mpr (hlast .peerPrimaryLink nofun)⟩

end

/-- What a link's task does from one frame to the next. -/
def takeAndStore {n : Nat} (link : Fin n) (frame : Frame) : List (Action n) :=
  .receive link frame :: List.replicate 4 (.advance link)

/-- Two payloads of one peer, the second sent after its path shrank and its primary
moved from `lte` to `wan`. -/
def olderPayload : VersionInfoPayload := versionInfo "1.0" 1400 1400 (some 0) ["lte", "wan"]
def newerPayload : VersionInfoPayload := versionInfo "1.0" 1280 1280 (some 1) ["lte", "wan"]

/-- The older payload over link 0, the newer one over link 1, in this order. -/
def inOrder : List (Action 2) :=
  takeAndStore ⟨0, Nat.two_pos⟩ (sendVersionInfo 7 olderPayload) ++
    takeAndStore ⟨1, Nat.one_lt_two⟩ (sendVersionInfo 8 newerPayload)

/-- Link 0 is slower than that. -/
def overtaken : List (Action 2) :=
  takeAndStore ⟨1, Nat.one_lt_two⟩ (sendVersionInfo 8 newerPayload) ++
    takeAndStore ⟨0, Nat.two_pos⟩ (sendVersionInfo 7 olderPayload)

theorem peer_info_newest_in_order :
    (run (fun _ => "") inOrder).info.peerMtu = some 1280 ∧
      (run (fun _ => "") inOrder).info.peerLiveMtu = some 1280 ∧
      (run (fun _ => "") inOrder).info.peerPrimaryLink =
        newerPayload.primaryLinkNameStr fun _ => "" := by
  have hidle : ∀ link, (run (fun _ => "") inOrder).tasks link = .idle := by decide +kernel
  have hnewest : Newest (log (fun _ => "") inOrder) (sendVersionInfo 8 newerPayload)
      newerPayload := ⟨by decide +kernel, by decide +kernel⟩
  have hlast : ∀ cell, (stores cell (log (fun _ => "") inOrder)).getLast? =
      some (sendVersionInfo 8 newerPayload, newerPayload) := by
    intro cell
    cases cell <;> decide +kernel
  exact (peer_info_newest_iff _ inOrder hidle hnewest).mpr fun cell _ =>
    ⟨_, hlast cell, by cases cell <;> rfl⟩

/-- The frame with seq 7 arrives after the one with seq 8, over the slower link, and
what it says stays. -/
theorem peer_info_overtaken :
    (∀ link, (run (fun _ => "") overtaken).tasks link = .idle) ∧
      Newest (log (fun _ => "") overtaken) (sendVersionInfo 8 newerPayload) newerPayload ∧
      newerPayload.tunnelMtu = 1280 ∧ newerPayload.liveTunnelMtu = 1280 ∧
      newerPayload.primaryLinkNameStr (fun _ => "") = some "wan" ∧
      (run (fun _ => "") overtaken).info = ⟨some "1.0", some 1400, some 1400, some "lte"⟩ ∧
      (run (fun _ => "") inOrder).info = ⟨some "1.0", some 1280, some 1280, some "wan"⟩ :=
  ⟨by decide +kernel, ⟨by decide +kernel, by decide +kernel⟩, rfl, rfl, by decide +kernel,
    by decide +kernel, by decide +kernel⟩

end Mlvpn.Ports.VersionExchange
