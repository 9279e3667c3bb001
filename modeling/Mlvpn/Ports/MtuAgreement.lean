import Mlvpn.Ports.ConfigFile
import Mathlib.Logic.Function.Basic

/-!
# Agreeing on the tunnel MTU

Two peers each run `control::mtu_monitor_loop` and send each other `VersionInfo`
frames (`tunnel::send_version_info`).  A frame carries what the sender's links
can carry, `local_capability_mtu`, and the receiver stores it for its next round
of the loop.  Every access to a shared cell is a step of its own, so a frame can
be sent or stored in the middle of a round, and the network keeps every frame
ever sent: it delivers any of them at any time, any number of times or never.
Resizes succeed.

Of a `VersionInfo` frame only the field that negotiation reads is kept.

## Main results

* `inv_run`: in every reachable state, a finished round that began after the
  peer's value was stored has left the negotiation of the two current values in
  place.
* `exchange_negotiates`: from any history, one frame each way between two rounds
  brings both ends to the negotiation of what they detect now.
* `live_mtus_agree`: in every reachable state where each end has settled on the
  other's current capability, both run at the smaller one.
-/

namespace Mlvpn.Ports.MtuAgreement

open TunnelMtu
open ConfigFile (Mode)

/-! ## The peers -/

/-- What is fixed for one end's lifetime.  `startup` holds the physical MTUs its
links had when they were bound. -/
structure Config where
  tunnel : TunnelConfig
  fecReservation : UInt16
  startup : List (Option UInt32)

def Config.floor (cfg : Config) : UInt16 := mtuFloorFor cfg.tunnel

/-- Where a round of `mtu_monitor_loop` stands. -/
inductive Monitor where
  /-- Waiting for the next tick. -/
  | idle
  /-- The capability is computed and about to be stored. -/
  | computed (localMtu : UInt16)
  /-- The capability is stored and the peer's value about to be read. -/
  | stored (localMtu : UInt16)
  /-- About to compare the negotiated value with the live one. -/
  | read (localMtu : UInt16) (peerAdvertised : Option UInt16)
  /-- The device is being resized. -/
  | resizing (recomputed : UInt16)
deriving Repr, DecidableEq

/-- One end.  The last two fields are not part of the program: they date the
latest change of `peerMtu` and the tick that began the latest round. -/
structure Party where
  liveMtu : UInt16
  localCapabilityMtu : UInt16
  peerMtu : Option UInt16
  monitor : Monitor
  changedAt : Nat
  tickedAt : Option Nat
deriving Repr, DecidableEq

/-- A `VersionInfo` frame. -/
structure VersionInfo where
  tunnelMtu : UInt16
deriving Repr, DecidableEq

/-- Both cells start with the MTU the device was opened with. -/
def Party.start (cfg : Config) : Party :=
  { liveMtu := effectiveTunnelMtu cfg.tunnel cfg.startup cfg.fecReservation none
    localCapabilityMtu := effectiveTunnelMtu cfg.tunnel cfg.startup cfg.fecReservation none
    peerMtu := none
    monitor := .idle
    changedAt := 0
    tickedAt := none }

/-- The tick: the links are queried and the capability computed. -/
def Party.tick (cfg : Config) (now : Nat) (detected : List (Option UInt32))
    (primaryIdx : Option Nat) (p : Party) : Party :=
  match p.monitor with
  | .idle =>
      { p with
        monitor :=
          .computed (effectiveTunnelMtu cfg.tunnel detected cfg.fecReservation primaryIdx)
        tickedAt := some now }
  | _ => p

/-- The rest of a round, one access at a time. -/
def Party.advance (cfg : Config) (p : Party) : Party :=
  match p.monitor with
  | .idle => p
  | .computed localMtu => { p with localCapabilityMtu := localMtu, monitor := .stored localMtu }
  | .stored localMtu => { p with monitor := .read localMtu p.peerMtu }
  | .read localMtu peerAdvertised =>
      let recomputed := negotiateTunnelMtu localMtu peerAdvertised cfg.floor
      if mtuResizeNeeded p.liveMtu recomputed then { p with monitor := .resizing recomputed }
      else { p with monitor := .idle }
  | .resizing recomputed => { p with liveMtu := recomputed, monitor := .idle }

/-- `handle_incoming` on a `VersionInfo` frame. -/
def Party.handleIncoming (now : Nat) (info : VersionInfo) (p : Party) : Party :=
  { p with
    peerMtu := some info.tunnelMtu
    changedAt := if p.peerMtu = some info.tunnelMtu then p.changedAt else now }

/-- `send_version_info`. -/
def Party.sendVersionInfo (p : Party) : VersionInfo := ⟨p.localCapabilityMtu⟩

/-! ## The system -/

/-- The two ends and every frame each of them has sent. -/
structure State where
  parties : Mode → Party
  sent : Mode → List VersionInfo
  now : Nat

inductive Action where
  | tick (mode : Mode) (detected : List (Option UInt32)) (primaryIdx : Option Nat)
  | advance (mode : Mode)
  | sendVersionInfo (mode : Mode)
  /-- The frame that the peer sent as its `k`-th reaches `mode`. -/
  | deliver (mode : Mode) (k : Nat)

/-- Replace one end. -/
def State.update (s : State) (mode : Mode) (f : Party → Party) : State :=
  { s with
    parties := Function.update s.parties mode (f (s.parties mode))
    now := s.now + 1 }

def State.step (cfg : Mode → Config) (s : State) : Action → State
  | .tick mode detected primaryIdx =>
      s.update mode (Party.tick (cfg mode) s.now detected primaryIdx)
  | .advance mode => s.update mode (Party.advance (cfg mode))
  | .sendVersionInfo mode =>
      { s with
        sent := Function.update s.sent mode
          (s.sent mode ++ [(s.parties mode).sendVersionInfo])
        now := s.now + 1 }
  | .deliver mode k =>
      match (s.sent mode.peer)[k]? with
      | some info => s.update mode (Party.handleIncoming s.now info)
      | none => s

def State.run (cfg : Mode → Config) (s : State) (actions : List Action) : State :=
  actions.foldl (State.step cfg) s

def State.start (cfg : Mode → Config) : State :=
  { parties := fun mode => Party.start (cfg mode), sent := fun _ => [], now := 1 }

/-! ## Rounds -/

/-- The latest round began after the peer's value took its current value. -/
def Party.Current (p : Party) : Prop := ∃ t, p.tickedAt = some t ∧ p.changedAt < t

/-- What a round that began after the peer's value was stored knows so far. -/
def Party.Phase (cfg : Config) (p : Party) : Prop :=
  match p.monitor with
  | .idle => p.liveMtu = negotiateTunnelMtu p.localCapabilityMtu p.peerMtu cfg.floor
  | .computed _ => True
  | .stored localMtu => localMtu = p.localCapabilityMtu
  | .read localMtu peerAdvertised =>
      localMtu = p.localCapabilityMtu ∧ peerAdvertised = p.peerMtu
  | .resizing recomputed =>
      recomputed = negotiateTunnelMtu p.localCapabilityMtu p.peerMtu cfg.floor

/-- The invariant of one end at time `now`. -/
structure Party.Inv (cfg : Config) (now : Nat) (p : Party) : Prop where
  changed : p.changedAt < now
  ticked : ∀ t, p.tickedAt = some t → t < now
  phase : p.Current → p.Phase cfg

variable {cfg : Config} {now : Nat} {p : Party}

theorem inv_start (cfg : Config) : (Party.start cfg).Inv cfg 1 where
  changed := Nat.zero_lt_one
  ticked := fun t ht => absurd ht (by simp [Party.start])
  phase := fun ⟨t, ht, _⟩ => absurd ht (by simp [Party.start])

/-- Time passes. -/
theorem Party.Inv.later (h : p.Inv cfg now) : p.Inv cfg (now + 1) where
  changed := Nat.lt_succ_of_lt h.changed
  ticked := fun t ht => Nat.lt_succ_of_lt (h.ticked t ht)
  phase := h.phase

theorem inv_tick (h : p.Inv cfg now) (detected : List (Option UInt32))
    (primaryIdx : Option Nat) : (p.tick cfg now detected primaryIdx).Inv cfg (now + 1) := by
  cases hm : p.monitor with
  | idle =>
    simp only [Party.tick, hm]
    exact
      { changed := h.later.changed
        ticked := fun t ht => by
          obtain rfl : now = t := by simpa using ht
          exact Nat.lt_succ_self _
        phase := fun _ => trivial }
  | _ =>
    simp only [Party.tick, hm]
    exact h.later

theorem inv_advance (h : p.Inv cfg now) : (p.advance cfg).Inv cfg (now + 1) := by
  -- No access of a round is dated, so a round stays as current as it was.
  have hphase : p.Current → p.Phase cfg := h.phase
  cases hm : p.monitor with
  | idle =>
    simp only [Party.advance, hm]
    exact h.later
  | computed localMtu =>
    simp only [Party.advance, hm]
    exact { h.later with phase := fun _ => rfl }
  | stored localMtu =>
    simp only [Party.Phase, hm] at hphase
    simp only [Party.advance, hm]
    exact { h.later with phase := fun hc => ⟨hphase hc, rfl⟩ }
  | read localMtu peerAdvertised =>
    simp only [Party.Phase, hm] at hphase
    simp only [Party.advance, hm]
    by_cases hresize :
        mtuResizeNeeded p.liveMtu (negotiateTunnelMtu localMtu peerAdvertised cfg.floor) = true
    · rw [if_pos hresize]
      refine { h.later with phase := fun hc => ?_ }
      obtain ⟨hlocal, hpeer⟩ := hphase hc
      simp only [Party.Phase, hlocal, hpeer]
    · rw [if_neg hresize]
      refine { h.later with phase := fun hc => ?_ }
      obtain ⟨hlocal, hpeer⟩ := hphase hc
      -- No resize is needed because the live value is already the negotiated one.
      simp only [Party.Phase]
      rw [hlocal, hpeer] at hresize
      simpa [mtuResizeNeeded] using hresize
  | resizing recomputed =>
    simp only [Party.Phase, hm] at hphase
    simp only [Party.advance, hm]
    exact { h.later with phase := fun hc => hphase hc }

theorem inv_handleIncoming (h : p.Inv cfg now) (info : VersionInfo) :
    (p.handleIncoming now info).Inv cfg (now + 1) := by
  by_cases hsame : p.peerMtu = some info.tunnelMtu
  · -- The value is the one already stored.
    have hself : p.handleIncoming now info = p := by
      simp only [Party.handleIncoming, ← hsame, if_true]
    rw [hself]
    exact h.later
  · simp only [Party.handleIncoming, if_neg hsame]
    refine { changed := Nat.lt_succ_self _, ticked := h.later.ticked, phase := ?_ }
    -- No round has begun since.
    rintro ⟨t, ht, hlt⟩
    exact absurd (h.ticked t ht) (by simp only at hlt; omega)

/-! ## Runs -/

/-- The invariant of the system: that of each end. -/
def Inv (cfg : Mode → Config) (s : State) : Prop :=
  ∀ mode, (s.parties mode).Inv (cfg mode) s.now

variable {cfgs : Mode → Config} {s : State}

/-- A step of one end lets time pass for the other. -/
theorem inv_update (h : Inv cfgs s) (mode : Mode) {f : Party → Party}
    (hf : (f (s.parties mode)).Inv (cfgs mode) (s.now + 1)) : Inv cfgs (s.update mode f) := by
  intro other
  by_cases hother : other = mode
  · subst hother
    simp only [State.update, Function.update_self]
    exact hf
  · simp only [State.update, Function.update_of_ne hother]
    exact (h other).later

theorem inv_step (h : Inv cfgs s) (action : Action) : Inv cfgs (s.step cfgs action) := by
  cases action with
  | tick mode detected primaryIdx =>
    exact inv_update h mode (inv_tick (h mode) detected primaryIdx)
  | advance mode => exact inv_update h mode (inv_advance (h mode))
  | sendVersionInfo mode => exact fun other => (h other).later
  | deliver mode k =>
    simp only [State.step]
    split
    · exact inv_update h mode (inv_handleIncoming (h mode) _)
    · exact h

theorem inv_run (h : Inv cfgs s) (actions : List Action) : Inv cfgs (s.run cfgs actions) := by
  induction actions generalizing s with
  | nil => exact h
  | cons action actions ih => exact ih (inv_step h action)

/-! ## One exchange suffices -/

/-- A whole round of `mtu_monitor_loop`. -/
def round (mode : Mode) (detected : List (Option UInt32)) (primaryIdx : Option Nat) :
    List Action :=
  [.tick mode detected primaryIdx, .advance mode, .advance mode, .advance mode, .advance mode]

/-- What a whole round makes of an end. -/
def Party.afterRound (cfg : Config) (now : Nat) (detected : List (Option UInt32))
    (primaryIdx : Option Nat) (p : Party) : Party :=
  let localMtu := effectiveTunnelMtu cfg.tunnel detected cfg.fecReservation primaryIdx
  { p with
    liveMtu := negotiateTunnelMtu localMtu p.peerMtu cfg.floor
    localCapabilityMtu := localMtu
    tickedAt := some now }

/-- The end of a round: compare, and resize if need be. -/
theorem advance_advance_read {localMtu : UInt16} {peerAdvertised : Option UInt16}
    (hread : p.monitor = .read localMtu peerAdvertised) :
    (p.advance cfg).advance cfg =
      { p with
        liveMtu := negotiateTunnelMtu localMtu peerAdvertised cfg.floor
        monitor := .idle } := by
  by_cases hresize :
      mtuResizeNeeded p.liveMtu (negotiateTunnelMtu localMtu peerAdvertised cfg.floor) = true
  · have hstep : p.advance cfg =
        { p with monitor := .resizing (negotiateTunnelMtu localMtu peerAdvertised cfg.floor) } := by
      simp only [Party.advance, hread, if_pos hresize]
    rw [hstep]
    rfl
  · have hstep : p.advance cfg = { p with monitor := .idle } := by
      simp only [Party.advance, hread, if_neg hresize]
    have hlive : p.liveMtu = negotiateTunnelMtu localMtu peerAdvertised cfg.floor := by
      simpa [mtuResizeNeeded] using hresize
    rw [hstep, ← hlive]
    rfl

theorem advance_round (cfg : Config) (now : Nat) (detected : List (Option UInt32))
    (primaryIdx : Option Nat) (hidle : p.monitor = .idle) :
    ((((p.tick cfg now detected primaryIdx).advance cfg).advance cfg).advance cfg).advance cfg =
      p.afterRound cfg now detected primaryIdx := by
  obtain ⟨live, capability, peer, monitor, changedAt, tickedAt⟩ := p
  obtain rfl : monitor = .idle := hidle
  exact advance_advance_read (by rfl)

theorem run_round (cfgs : Mode → Config) (s : State) (mode : Mode) (detected : List (Option UInt32))
    (primaryIdx : Option Nat) (hidle : (s.parties mode).monitor = .idle) :
    s.run cfgs (round mode detected primaryIdx) =
      { parties := Function.update s.parties mode
          ((s.parties mode).afterRound (cfgs mode) s.now detected primaryIdx)
        sent := s.sent
        now := s.now + 5 } := by
  simp only [State.run, round, List.foldl_cons, List.foldl_nil, State.step, State.update,
    Function.update_self, Function.update_idem, advance_round _ _ _ _ hidle]

section

variable (cfgs : Mode → Config) (s : State) (detected : Mode → List (Option UInt32))
  (primaryIdx : Mode → Option Nat)

/-- What an end's links can carry when it detects `detected`. -/
def capability (mode : Mode) : UInt16 :=
  effectiveTunnelMtu (cfgs mode).tunnel (detected mode) (cfgs mode).fecReservation
    (primaryIdx mode)

/-- A round at each end. -/
def rounds : List Action :=
  round .client (detected .client) (primaryIdx .client) ++
    round .server (detected .server) (primaryIdx .server)

/-- A round at each end, a frame each way, and another round at each end. -/
def exchange : List Action :=
  rounds detected primaryIdx ++
    [.sendVersionInfo .client, .sendVersionInfo .server,
      .deliver .client (s.sent .server).length, .deliver .server (s.sent .client).length] ++
    rounds detected primaryIdx

variable {s}

/-- Two rounds, the server's five steps after the client's. -/
theorem run_rounds (hidle : ∀ mode, (s.parties mode).monitor = .idle) :
    s.run cfgs (rounds detected primaryIdx) =
      { parties := fun mode =>
          (s.parties mode).afterRound (cfgs mode)
            (match mode with | .client => s.now | .server => s.now + 5)
            (detected mode) (primaryIdx mode)
        sent := s.sent
        now := s.now + 5 + 5 } := by
  have hother : Mode.server ≠ Mode.client := by decide
  refine List.foldl_append.trans ?_
  rw [← State.run, ← State.run, run_round cfgs s .client _ _ (hidle .client), run_round]
  · congr 1
    funext mode
    cases mode with
    | client => simp only [Function.update_of_ne hother.symm, Function.update_self]
    | server => simp only [Function.update_self, Function.update_of_ne hother]
  · simp only [Function.update_of_ne hother]
    exact hidle .server

/-- The frames of an exchange tell each end what the other can carry. -/
theorem run_frames (sent : Mode → List VersionInfo) (hsent : s.sent = sent) (mode : Mode) :
    ((s.run cfgs
      [.sendVersionInfo .client, .sendVersionInfo .server,
        .deliver .client (sent .server).length,
        .deliver .server (sent .client).length]).parties mode) =
      (s.parties mode).handleIncoming
        (match mode with | .client => s.now + 1 + 1 | .server => s.now + 1 + 1 + 1)
        ⟨(s.parties mode.peer).localCapabilityMtu⟩ := by
  subst hsent
  cases mode with
  | client => simp [State.run, State.step, State.update, Mode.peer, Party.sendVersionInfo]
  | server => simp [State.run, State.step, State.update, Mode.peer, Party.sendVersionInfo]

/-- Whatever came before, one exchange brings both ends to the negotiation of
what they detect now: nothing of an earlier, smaller capability is left. -/
theorem exchange_negotiates (hidle : ∀ mode, (s.parties mode).monitor = .idle) (mode : Mode) :
    ((s.run cfgs (exchange s detected primaryIdx)).parties mode).liveMtu =
      negotiateTunnelMtu (capability cfgs detected primaryIdx mode)
        (some (capability cfgs detected primaryIdx mode.peer)) (cfgs mode).floor := by
  have hfirst := run_rounds cfgs detected primaryIdx hidle
  have hframes := run_frames (s := s.run cfgs (rounds detected primaryIdx)) cfgs s.sent
    (by rw [hfirst])
  rw [hfirst] at hframes
  rw [exchange, State.run, List.foldl_append, List.foldl_append, ← State.run, ← State.run,
    ← State.run, hfirst, run_rounds]
  · simp only [Party.afterRound] at hframes ⊢
    rw [hframes mode]
    rfl
  · intro other
    rw [hframes other]
    exact hidle other

end

/-- Two ends on IPv4 alone. -/
def plainEnds : Mode → Config := fun _ =>
  { tunnel := { mtu := none, address6 := none }, fecReservation := 0, startup := [some 1500] }

/-- One end's path has shrunk to 900 since the start: the other follows. -/
theorem exchange_negotiates_dip :
    (((State.start plainEnds).run plainEnds (exchange (.start plainEnds)
      (fun mode => [some (if mode = .client then 1500 else 900)]) fun _ => none)).parties
        .client).liveMtu = 788 :=
  (exchange_negotiates plainEnds _ _ (fun _ => rfl) .client).trans (by decide)

/-! ## Agreement -/

/-- The latest round is over and began after the peer's value was stored. -/
structure Party.Settled (p : Party) : Prop where
  idle : p.monitor = .idle
  current : p.Current

theorem liveMtu_of_settled (h : p.Inv cfg now) (hsettled : p.Settled) :
    p.liveMtu = negotiateTunnelMtu p.localCapabilityMtu p.peerMtu cfg.floor := by
  have hphase := h.phase hsettled.current
  simpa only [Party.Phase, hsettled.idle] using hphase

/-- The smaller of the two current capabilities. -/
def State.agreed (s : State) : UInt16 :=
  min (s.parties .client).localCapabilityMtu (s.parties .server).localCapabilityMtu

theorem min_peer_eq_agreed (s : State) (mode : Mode) :
    min (s.parties mode).localCapabilityMtu (s.parties mode.peer).localCapabilityMtu =
      s.agreed := by
  cases mode with
  | client => rfl
  | server => exact mtu_min_comm _ _

/-- A capability that some floor allows is an opinion. -/
theorem ne_zero_of_floor_le {cfg : Config} {capability : UInt16}
    (h : cfg.floor.toNat ≤ capability.toNat) : capability ≠ 0 := by
  rintro rfl
  exact absurd (mtuFloorFor_pos cfg.tunnel) (Nat.not_lt.mpr h)

/-- Whatever the ends could carry before and whatever was lost, delayed or
repeated: once each end has stored the other's current capability and finished a
round begun after that, both run at the smaller of the two, unless a floor
forbids it. -/
theorem live_mtus_agree (cfgs : Mode → Config) (actions : List Action)
    (hstored : ∀ mode, (((State.start cfgs).run cfgs actions).parties mode).peerMtu =
      some (((State.start cfgs).run cfgs actions).parties mode.peer).localCapabilityMtu)
    (hsettled : ∀ mode, (((State.start cfgs).run cfgs actions).parties mode).Settled)
    (hfloor : ∀ mode, (cfgs mode).floor ≤ ((State.start cfgs).run cfgs actions).agreed) :
    ∀ mode, (((State.start cfgs).run cfgs actions).parties mode).liveMtu =
      ((State.start cfgs).run cfgs actions).agreed := by
  intro mode
  have hinv : Inv cfgs ((State.start cfgs).run cfgs actions) :=
    inv_run (fun mode => inv_start (cfgs mode)) actions
  generalize (State.start cfgs).run cfgs actions = s at *
  have hmin := min_peer_eq_agreed s mode
  have hle : (cfgs mode).floor ≤ min (s.parties mode).localCapabilityMtu
      (s.parties mode.peer).localCapabilityMtu := hmin ▸ hfloor mode
  have hopinion : (s.parties mode.peer).localCapabilityMtu ≠ 0 := by
    rw [UInt16.le_iff_toNat_le, toNat_min] at hle
    exact ne_zero_of_floor_le (Nat.le_trans hle (Nat.min_le_right _ _))
  rw [liveMtu_of_settled (hinv mode) (hsettled mode), hstored mode,
    negotiateTunnelMtu_eq_min hopinion hle, hmin]

/-- The server's link dips to 900 bytes and recovers. -/
def dipAndRecovery : List Action :=
  let dip : Mode → List (Option UInt32)
    | .client => [some 1500]
    | .server => [some 900]
  let full : Mode → List (Option UInt32) := fun _ => [some 1500]
  rounds dip (fun _ => none) ++
    [.sendVersionInfo .server, .sendVersionInfo .client, .deliver .client 0, .deliver .server 0] ++
    rounds dip (fun _ => none) ++ rounds full (fun _ => none) ++
    [.sendVersionInfo .server, .sendVersionInfo .client, .deliver .client 1, .deliver .server 1] ++
    rounds full (fun _ => none)

theorem live_mtus_agree_after_dip :
    (((State.start plainEnds).run plainEnds dipAndRecovery).parties .client).liveMtu = 1388 ∧
    (((State.start plainEnds).run plainEnds dipAndRecovery).parties .server).liveMtu = 1388 := by
  have hagree := live_mtus_agree plainEnds dipAndRecovery
    (by intro mode; cases mode <;> decide)
    (by
      intro mode
      cases mode with
      | client => exact ⟨by decide, 39, by decide, by decide⟩
      | server => exact ⟨by decide, 44, by decide, by decide⟩)
    (by intro mode; cases mode <;> decide)
  exact ⟨(hagree .client).trans (by decide), (hagree .server).trans (by decide)⟩

end Mlvpn.Ports.MtuAgreement
