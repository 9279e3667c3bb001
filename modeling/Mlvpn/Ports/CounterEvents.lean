import Mlvpn.Ports.TxDispatch
import Mlvpn.Verified.AssocMap
import Mlvpn.Verified.Floating

/-!
# Events from counters

Port of `events::EventDetector`: it compares what it observes with what it observed before and
makes events of what has changed.  What counters have gained is added up by kind and link and
told in one event at most every two seconds.

## Main results

* `observe_counter`: what one observation does to one counter.
* `counters_conserved`: what has been told and what is still to be told come to everything the
  counter has gained, as long as what is to be told fits into 64 bits; and what is told of one
  counter is told at least two seconds apart.
* `pending_wraps`: a counter that goes back and forth, of which `2 ^ 64` occurrences are lost.
-/

namespace Mlvpn.Ports.CounterEvents

open Verified AssocMap
open TxDispatch (LinkState)
open Verified.Floating (ofRat)

def COUNTER_THROTTLE_MS : Nat := 2000
/-- A throttle window's worth of late frames below this is ordinary jitter. -/
def REORDER_WARN_MIN : UInt64 := 50
def LOSSY_ENTER_PCT : ℚ := 5
def LOSSY_EXIT_PCT : ℚ := 2

/-! ## Events -/

inductive EventKind where
  | LinkUp
  | LinkDown
  | LinkDegraded
  | LinkRecovered
  | CongestionDetected
  | CongestionCleared
  | TxQueueFull
  | SendFailure
  | Reroute
  | FecRecovery
  | FecUnrecoverable
  | ReorderWarning
  | MtuChanged
  | MtuNegotiationFailed
  | WireguardHandshake
  | WireguardRekey
  | WireguardError
  | TunDrop
  | OutboundQueueDrop
deriving Repr, DecidableEq

def EventKind.asStr : EventKind → String
  | .LinkUp => "LINK_UP"
  | .LinkDown => "LINK_DOWN"
  | .LinkDegraded => "LINK_DEGRADED"
  | .LinkRecovered => "LINK_RECOVERED"
  | .CongestionDetected => "CONGESTION_DETECTED"
  | .CongestionCleared => "CONGESTION_CLEARED"
  | .TxQueueFull => "TX_QUEUE_FULL"
  | .SendFailure => "SEND_FAILURE"
  | .Reroute => "REROUTE"
  | .FecRecovery => "FEC_RECOVERY"
  | .FecUnrecoverable => "FEC_UNRECOVERABLE"
  | .ReorderWarning => "REORDER_WARNING"
  | .MtuChanged => "MTU_CHANGED"
  | .MtuNegotiationFailed => "MTU_NEGOTIATION_FAILED"
  | .WireguardHandshake => "WIREGUARD_HANDSHAKE"
  | .WireguardRekey => "WIREGUARD_REKEY"
  | .WireguardError => "WIREGUARD_ERROR"
  | .TunDrop => "TUN_DROP"
  | .OutboundQueueDrop => "OUTBOUND_QUEUE_DROP"

inductive Severity where
  | Info
  | Warn
  | Error
deriving Repr, DecidableEq

/-- `fields` is the map's entries in the order of its keys. -/
structure NewEvent where
  kind : EventKind
  severity : Severity
  link : Option String
  message : String
  fields : List (String × String)
deriving Repr, DecidableEq

def linkStateStr : LinkState → String
  | .Probing => "probing"
  | .Up => "up"
  | .Down => "down"

/-- One link's state as seen by one `observe` call. -/
structure LinkObs (F : Type*) where
  name : String
  state : LinkState
  congested : Bool
  lossPct : Option F
  queueFull : UInt64
  sendFailed : UInt64
  rerouted : UInt64
  wgRejected : UInt64
  handshakeAgeMs : Option UInt64

structure Obs (F : Type*) where
  nowMs : UInt64
  links : List (LinkObs F)
  fecRecovered : UInt64
  fecUnrecoverable : UInt64
  outboundDropped : UInt64
  tunDropped : UInt64
  reorderTimeouts : UInt64
  mtu : UInt16

structure LinkTrack where
  state : Option LinkState
  everUp : Bool
  congested : Bool
  lossy : Bool
  queueFull : UInt64
  sendFailed : UInt64
  rerouted : UInt64
  wgRejected : UInt64
  handshakeAgeMs : Option UInt64

def LinkTrack.default : LinkTrack := ⟨none, false, false, false, 0, 0, 0, 0, none⟩

abbrev CounterKey := EventKind × Nat
/-- `usize::MAX`. -/
def GLOBAL : Nat := 18446744073709551615

abbrev Counters := AList fun _ : CounterKey => UInt64

structure EventDetector where
  seeded : Bool
  links : List LinkTrack
  fecRecovered : UInt64
  fecUnrecoverable : UInt64
  outboundDropped : UInt64
  tunDropped : UInt64
  reorderTimeouts : UInt64
  mtu : UInt16
  pending : Counters
  lastEmitMs : Counters

def EventDetector.new : EventDetector := ⟨false, [], 0, 0, 0, 0, 0, 0, ∅, ∅⟩

/-! ## Counters -/

/-- `add_delta`, on the map of what is to be told. -/
def addDelta (pending : Counters) (kind : EventKind) (idx : Nat) (now prev : UInt64) : Counters :=
  if now > prev then
    pending.insert (kind, idx) ((pending.lookup (kind, idx)).getD 0 + (now - prev))
  else pending

/-- The severity and the text for a counter, and nothing for any other kind. -/
def counterText (kind : EventKind) (who n : String) : Option (Severity × String) :=
  match kind with
  | .TxQueueFull => some (.Warn, "link " ++ who ++ ": TX queue was full " ++ n ++ " time(s)")
  | .SendFailure => some (.Warn, "link " ++ who ++ ": " ++ n ++ " packet(s) failed to send")
  | .Reroute => some (.Info, "link " ++ who ++ ": " ++ n ++ " packet(s) rerouted to another link")
  | .WireguardError =>
      some (.Warn, "link " ++ who ++ ": " ++ n ++ " datagram(s) rejected by WireGuard")
  | .FecRecovery => some (.Info, "FEC recovered " ++ n ++ " lost frame(s)")
  | .FecUnrecoverable =>
      some (.Warn, "FEC could not recover " ++ n ++ " parity group share(s)")
  | .OutboundQueueDrop => some (.Warn, n ++ " packet(s) dropped: outbound queue full")
  | .TunDrop => some (.Warn, "TUN device dropped " ++ n ++ " packet(s)")
  | .ReorderWarning => some (.Warn, n ++ " frame(s) waited out the full reorder window")
  | _ => none

/-- The event for `n` occurrences. -/
def counterEvent (key : CounterKey) (n : UInt64) (link : Option String) : Option NewEvent :=
  if key.1 = .ReorderWarning ∧ n < REORDER_WARN_MIN then none
  else (counterText key.1 (link.getD "") n.toNat.repr).map fun t =>
    ⟨key.1, t.1, link, t.2, [("count", n.toNat.repr)]⟩

/-- The order of the events: by the text of the kind, then by link. -/
def keyLe (a b : CounterKey) : Prop :=
  a.1.asStr < b.1.asStr ∨ a.1.asStr = b.1.asStr ∧ a.2 ≤ b.2

instance decidableKeyLe : DecidableRel keyLe := fun _ _ => inferInstanceAs (Decidable (_ ∨ _))

namespace EventDetector

/-- Something is to be told of the counter, and the last time is long enough ago. -/
def isDue (self : EventDetector) (nowMs : UInt64) (key : CounterKey) (n : UInt64) : Bool :=
  n > 0 && (self.lastEmitMs.lookup key).all fun t => nowMs.toNat - t.toNat ≥ COUNTER_THROTTLE_MS

def dueKeys (self : EventDetector) (nowMs : UInt64) : List CounterKey :=
  ((self.pending.entries.filter fun e => self.isDue nowMs e.1 e.2).map Sigma.fst).insertionSort
    keyLe

/-- One round of the loop of `flush_counters`. -/
def flushKey (nowMs : UInt64) (names : List String) (acc : EventDetector × List NewEvent)
    (key : CounterKey) : EventDetector × List NewEvent :=
  let n := (acc.1.pending.lookup key).getD 0
  ({ acc.1 with
      pending := acc.1.pending.erase key
      lastEmitMs := acc.1.lastEmitMs.insert key nowMs },
    acc.2 ++ (counterEvent key n names[key.2]?).toList)

def flushCounters (self : EventDetector) (nowMs : UInt64) (names : List String)
    (out : List NewEvent) : EventDetector × List NewEvent :=
  (self.dueKeys nowMs).foldl (flushKey nowMs names) (self, out)

end EventDetector

/-! ## One link -/

section

variable {F : Type*} [Floating F] (fmt : F → String)

/-- The link has changed its state. -/
def stateEvent (t : LinkTrack) (l : LinkObs F) : Option NewEvent :=
  t.state.bind fun prev =>
    if prev = l.state then none
    else
      let f := [("from", linkStateStr prev), ("to", linkStateStr l.state)]
      match l.state with
      | .Up =>
          if t.everUp then
            some ⟨.LinkRecovered, .Info, some l.name, "link " ++ l.name ++ " is back up", f⟩
          else some ⟨.LinkUp, .Info, some l.name, "link " ++ l.name ++ " is up", f⟩
      | .Down => some ⟨.LinkDown, .Error, some l.name, "link " ++ l.name ++ " is down", f⟩
      | .Probing => none

def congestionEvent (t : LinkTrack) (l : LinkObs F) : Option NewEvent :=
  if l.congested && !t.congested then
    some ⟨.CongestionDetected, .Warn, some l.name,
      "link " ++ l.name ++ " is congested; traffic is being shifted away", []⟩
  else if !l.congested && t.congested then
    some ⟨.CongestionCleared, .Info, some l.name, "link " ++ l.name ++ " congestion cleared", []⟩
  else none

/-- `fmt` is the format with one decimal place. -/
def lossEvent (t : LinkTrack) (l : LinkObs F) : Option NewEvent :=
  l.lossPct.bind fun loss =>
    if ofRat LOSSY_ENTER_PCT ≤ loss ∧ t.lossy = false then
      some ⟨.LinkDegraded, .Warn, some l.name, "link " ++ l.name ++ " loss is " ++ fmt loss ++ "%",
        [("loss_pct", fmt loss)]⟩
    else if loss ≤ ofRat LOSSY_EXIT_PCT ∧ t.lossy = true then
      some ⟨.LinkRecovered, .Info, some l.name,
        "link " ++ l.name ++ " loss is back to " ++ fmt loss ++ "%", [("loss_pct", fmt loss)]⟩
    else none

def handshakeEvent (t : LinkTrack) (l : LinkObs F) : Option NewEvent :=
  match t.handshakeAgeMs, l.handshakeAgeMs with
  | none, some age => some ⟨.WireguardHandshake, .Info, some l.name,
      "link " ++ l.name ++ " completed its WireGuard handshake", [("age_ms", age.toNat.repr)]⟩
  | some prev, some now =>
      if now < prev then
        some ⟨.WireguardRekey, .Info, some l.name, "link " ++ l.name ++ " rekeyed", []⟩
      else none
  | _, none => none

/-- The link's state as the next observation finds it. -/
def LinkTrack.next (t : LinkTrack) (l : LinkObs F) : LinkTrack where
  state := some l.state
  everUp := t.everUp || l.state = .Up
  congested := l.state = .Up && l.congested
  lossy :=
    match l.lossPct with
    | some loss =>
        if l.state = .Up then
          if ofRat LOSSY_ENTER_PCT ≤ loss then true
          else if loss ≤ ofRat LOSSY_EXIT_PCT then false
          else t.lossy
        else false
    | none => false
  queueFull := l.queueFull
  sendFailed := l.sendFailed
  rerouted := l.rerouted
  wgRejected := l.wgRejected
  handshakeAgeMs := l.handshakeAgeMs

/-- The events of a link, apart from its counters. -/
def linkEvents (t : LinkTrack) (l : LinkObs F) : List NewEvent :=
  (stateEvent t l).toList ++
    (if l.state = .Up then (congestionEvent t l).toList ++ (lossEvent fmt t l).toList else []) ++
    (handshakeEvent t l).toList

namespace EventDetector

def observeLink (self : EventDetector) (idx : Nat) (l : LinkObs F) (emit : Bool) :
    EventDetector × List NewEvent :=
  let t := self.links.getD idx .default
  let deltas := if emit then
      [(EventKind.TxQueueFull, l.queueFull, t.queueFull),
        (.SendFailure, l.sendFailed, t.sendFailed),
        (.Reroute, l.rerouted, t.rerouted),
        (.WireguardError, l.wgRejected, t.wgRejected)]
    else []
  ({ self with
      links := self.links.set idx (t.next l)
      pending := deltas.foldl (fun p d => addDelta p d.1 idx d.2.1 d.2.2) self.pending },
    if emit then linkEvents fmt t l else [])

/-- The loop over the links, from index `idx` on. -/
def observeLinks (emit : Bool) :
    Nat → List (LinkObs F) → EventDetector → List NewEvent → EventDetector × List NewEvent
  | _, [], self, out => (self, out)
  | idx, l :: links, self, out =>
      let (self, events) := self.observeLink fmt idx l emit
      observeLinks emit (idx + 1) links self (out ++ events)

def mtuEvent (self : EventDetector) (obs : Obs F) : Option NewEvent :=
  if obs.mtu ≠ self.mtu ∧ self.mtu ≠ 0 then
    some ⟨.MtuChanged, .Info, none,
      "tunnel MTU changed " ++ self.mtu.toNat.repr ++ " -> " ++ obs.mtu.toNat.repr,
      [("from", self.mtu.toNat.repr), ("to", obs.mtu.toNat.repr)]⟩
  else none

/-- The counters that belong to no link. -/
def observeGlobals (self : EventDetector) (obs : Obs F) : Counters :=
  let deltas :=
    [(EventKind.FecRecovery, obs.fecRecovered, self.fecRecovered),
      (.FecUnrecoverable, obs.fecUnrecoverable, self.fecUnrecoverable),
      (.OutboundQueueDrop, obs.outboundDropped, self.outboundDropped),
      (.TunDrop, obs.tunDropped, self.tunDropped),
      (.ReorderWarning, obs.reorderTimeouts, self.reorderTimeouts)]
  deltas.foldl (fun p d => addDelta p d.1 GLOBAL d.2.1 d.2.2) self.pending

/-- `resize_with`, where there are more links than before. -/
def grown (self : EventDetector) (obs : Obs F) : EventDetector :=
  { self with
    links := self.links ++ List.replicate (obs.links.length - self.links.length) .default }

/-- What `observe` takes note of before it tells what is due. -/
def noted (self : EventDetector) (obs : Obs F) : EventDetector × List NewEvent :=
  let (self, out) := observeLinks fmt self.seeded 0 obs.links (self.grown obs) []
  let out := if self.seeded then out ++ (self.mtuEvent obs).toList else out
  let pending := if self.seeded then self.observeGlobals obs else self.pending
  ({ self with
      pending
      fecRecovered := obs.fecRecovered
      fecUnrecoverable := obs.fecUnrecoverable
      outboundDropped := obs.outboundDropped
      tunDropped := obs.tunDropped
      reorderTimeouts := obs.reorderTimeouts
      mtu := obs.mtu
      seeded := true }, out)

def observe (self : EventDetector) (obs : Obs F) : EventDetector × List NewEvent :=
  let (self, out) := self.noted fmt obs
  self.flushCounters obs.nowMs (obs.links.map LinkObs.name) out

end EventDetector

end

/-! ## What is to be told -/

open EventDetector

/-- The amount to be told of a counter. -/
def pendingOf (pending : Counters) (key : CounterKey) : UInt64 := (pending.lookup key).getD 0

/-- What a counter has gained between two observations. -/
def rise (now prev : UInt64) : UInt64 := if now > prev then now - prev else 0

theorem pendingOf_addDelta (pending : Counters) (kind : EventKind) (idx : Nat)
    (now prev : UInt64) (key : CounterKey) :
    pendingOf (addDelta pending kind idx now prev) key =
      pendingOf pending key + if key = (kind, idx) then rise now prev else 0 := by
  unfold addDelta rise
  by_cases hmore : now > prev
  · rw [if_pos hmore, if_pos hmore]
    by_cases hkey : key = (kind, idx)
    · rw [if_pos hkey, hkey, pendingOf, AList.lookup_insert]
      rfl
    · rw [if_neg hkey, pendingOf, AList.lookup_insert_ne hkey, UInt64.add_zero]
      rfl
  · rw [if_neg hmore, if_neg hmore, ite_self, UInt64.add_zero]

/-- The counters of a link. -/
inductive LinkCounter where
  | queueFull
  | sendFailed
  | rerouted
  | wgRejected
deriving DecidableEq

/-- The counters of the tunnel that are told in full. -/
inductive GlobalCounter where
  | fecRecovered
  | fecUnrecoverable
  | outboundDropped
  | tunDropped
deriving DecidableEq

inductive Counter where
  | link (c : LinkCounter) (idx : Nat)
  | tunnel (c : GlobalCounter)
deriving DecidableEq

def LinkCounter.kind : LinkCounter → EventKind
  | .queueFull => .TxQueueFull
  | .sendFailed => .SendFailure
  | .rerouted => .Reroute
  | .wgRejected => .WireguardError

def GlobalCounter.kind : GlobalCounter → EventKind
  | .fecRecovered => .FecRecovery
  | .fecUnrecoverable => .FecUnrecoverable
  | .outboundDropped => .OutboundQueueDrop
  | .tunDropped => .TunDrop

def Counter.key : Counter → CounterKey
  | .link c idx => (c.kind, idx)
  | .tunnel c => (c.kind, GLOBAL)

def LinkCounter.kept (t : LinkTrack) : LinkCounter → UInt64
  | .queueFull => t.queueFull
  | .sendFailed => t.sendFailed
  | .rerouted => t.rerouted
  | .wgRejected => t.wgRejected

def GlobalCounter.kept (self : EventDetector) : GlobalCounter → UInt64
  | .fecRecovered => self.fecRecovered
  | .fecUnrecoverable => self.fecUnrecoverable
  | .outboundDropped => self.outboundDropped
  | .tunDropped => self.tunDropped

/-- The counter as the detector remembers it. -/
def Counter.kept (self : EventDetector) : Counter → UInt64
  | .link c idx => c.kept (self.links.getD idx .default)
  | .tunnel c => c.kept self

section

variable {F : Type*}

def LinkCounter.value (l : LinkObs F) : LinkCounter → UInt64
  | .queueFull => l.queueFull
  | .sendFailed => l.sendFailed
  | .rerouted => l.rerouted
  | .wgRejected => l.wgRejected

def GlobalCounter.value (o : Obs F) : GlobalCounter → UInt64
  | .fecRecovered => o.fecRecovered
  | .fecUnrecoverable => o.fecUnrecoverable
  | .outboundDropped => o.outboundDropped
  | .tunDropped => o.tunDropped

/-- The counter in an observation. -/
def Counter.value (o : Obs F) : Counter → UInt64
  | .link c idx => (o.links[idx]?).elim 0 fun l => c.value l
  | .tunnel c => c.value o

/-- The counter is one of a tunnel with so many links. -/
def Counter.Of (n : Nat) : Counter → Prop
  | .link _ idx => idx < n
  | .tunnel _ => True

end

/-! ## The links -/

section

variable {F : Type*} [Floating F] (fmt : F → String)

theorem kept_next (t : LinkTrack) (l : LinkObs F) (c : LinkCounter) :
    c.kept (t.next l) = c.value l := by
  cases c with
  | _ => rfl

variable (emit : Bool) (self : EventDetector) (idx : Nat) (l : LinkObs F) (links : List (LinkObs F))
  (obs : Obs F) {c : Counter} (j : Nat)

theorem observeLink_pending (emit : Bool) (c : LinkCounter) (j : Nat) :
    pendingOf (self.observeLink fmt idx l emit).1.pending (c.kind, j) =
      pendingOf self.pending (c.kind, j) +
        if j = idx ∧ emit = true then
          rise (c.value l) (c.kept (self.links.getD idx .default)) else 0 := by
  cases emit with
  | false =>
    rw [if_neg fun h => Bool.false_ne_true h.2, UInt64.add_zero]
    rfl
  | true =>
    -- Each of the four additions is to a key of its own.
    show pendingOf (addDelta (addDelta (addDelta (addDelta _ _ _ _ _) _ _ _ _) _ _ _ _) _ _ _ _)
      _ = _
    rw [pendingOf_addDelta, pendingOf_addDelta, pendingOf_addDelta, pendingOf_addDelta]
    cases c with
    | _ => simp [LinkCounter.kind, LinkCounter.value, LinkCounter.kept]

/-- Keys of other kinds are left alone. -/
theorem observeLink_pending_other (emit : Bool) (c : GlobalCounter) (j : Nat) :
    pendingOf (self.observeLink fmt idx l emit).1.pending (c.kind, j) =
      pendingOf self.pending (c.kind, j) := by
  cases emit with
  | false => rfl
  | true =>
    show pendingOf (addDelta (addDelta (addDelta (addDelta _ _ _ _ _) _ _ _ _) _ _ _ _) _ _ _ _)
      _ = _
    rw [pendingOf_addDelta, pendingOf_addDelta, pendingOf_addDelta, pendingOf_addDelta]
    cases c with
    | _ => simp [GlobalCounter.kind]

/-- The observation of link `j`, in a list that begins at link `idx`. -/
def linkAt (idx : Nat) (links : List (LinkObs F)) (j : Nat) : Option (LinkObs F) :=
  if idx ≤ j then links[j - idx]? else none

omit [Floating F] in
theorem linkAt_cons :
    linkAt idx (l :: links) j = if j = idx then some l else linkAt (idx + 1) links j := by
  unfold linkAt
  by_cases hsame : j = idx
  · rw [if_pos hsame, if_pos (le_of_eq hsame.symm), hsame, Nat.sub_self]
    rfl
  · rw [if_neg hsame]
    by_cases hafter : idx + 1 ≤ j
    · rw [if_pos hafter, if_pos (by omega), show j - idx = (j - (idx + 1)) + 1 by omega]
      rfl
    · rw [if_neg hafter, if_neg (by omega)]

omit [Floating F] in
theorem linkAt_before {idx j : Nat} (links : List (LinkObs F)) (h : j < idx) :
    linkAt idx links j = none := if_neg (by omega)

theorem observeLink_links (emit : Bool) {j : Nat} (hne : j ≠ idx) :
    (self.observeLink fmt idx l emit).1.links.getD j .default = self.links.getD j .default := by
  show (self.links.set idx _).getD j _ = _
  rw [List.getD_eq_getElem?_getD, List.getElem?_set_ne (Ne.symm hne)]
  exact (List.getD_eq_getElem?_getD ..).symm

theorem observeLinks_cons (self : EventDetector) (out : List NewEvent) :
    observeLinks fmt emit idx (l :: links) self out =
      observeLinks fmt emit (idx + 1) links (self.observeLink fmt idx l emit).1
        (out ++ (self.observeLink fmt idx l emit).2) := rfl

/-- What the loop over the links adds. -/
theorem observeLinks_pending (self : EventDetector) (out : List NewEvent) (c : LinkCounter)
    (j : Nat) :
    pendingOf (observeLinks fmt emit idx links self out).1.pending (c.kind, j) =
      pendingOf self.pending (c.kind, j) + (linkAt idx links j).elim 0 fun l =>
        if emit = true then rise (c.value l) (c.kept (self.links.getD j .default)) else 0 := by
  induction links generalizing idx self out with
  | nil =>
    have hnone : linkAt idx ([] : List (LinkObs F)) j = none := ite_self _
    rw [hnone]
    exact (UInt64.add_zero _).symm
  | cons l links ih =>
    rw [observeLinks_cons, ih, observeLink_pending, linkAt_cons]
    by_cases hsame : j = idx
    · rw [if_pos hsame, linkAt_before links (by omega), hsame]
      show _ + _ + 0 = _
      rw [UInt64.add_zero, Option.elim_some]
      by_cases hemit : emit = true
      · rw [if_pos hemit, if_pos ⟨rfl, hemit⟩]
      · rw [if_neg hemit, if_neg fun h => hemit h.2]
    · rw [if_neg hsame, if_neg fun h => hsame h.1, UInt64.add_zero,
        observeLink_links _ _ _ _ _ hsame]

/-- What the loop over the links remembers of a counter. -/
theorem observeLinks_kept (self : EventDetector) (out : List NewEvent)
    (hlen : idx + links.length ≤ self.links.length) (c : LinkCounter) (j : Nat) :
    c.kept ((observeLinks fmt emit idx links self out).1.links.getD j .default) =
      (linkAt idx links j).elim (c.kept (self.links.getD j .default)) fun l => c.value l := by
  induction links generalizing idx self out with
  | nil =>
    have hnone : linkAt idx ([] : List (LinkObs F)) j = none := ite_self _
    rw [hnone]
    rfl
  | cons l links ih =>
    rw [List.length_cons] at hlen
    have hset : (self.observeLink fmt idx l emit).1.links =
        self.links.set idx ((self.links.getD idx .default).next l) := rfl
    rw [observeLinks_cons, ih _ _ _ (by rw [hset, List.length_set]; omega), linkAt_cons]
    by_cases hsame : j = idx
    · rw [if_pos hsame, linkAt_before links (by omega), hsame, hset,
        List.getD_eq_getElem?_getD, List.getElem?_set_self (by omega)]
      exact kept_next _ l c
    · rw [if_neg hsame, observeLink_links _ _ _ _ _ hsame]

/-- The loop over the links changes their states and what is to be told, and nothing else. -/
theorem observeLinks_frame (self : EventDetector) (out : List NewEvent) :
    (observeLinks fmt emit idx links self out).1 =
      { self with
        links := (observeLinks fmt emit idx links self out).1.links
        pending := (observeLinks fmt emit idx links self out).1.pending } ∧
    (observeLinks fmt emit idx links self out).1.links.length =
      self.links.length ∧
    ∀ (c : GlobalCounter) j,
      pendingOf (observeLinks fmt emit idx links self out).1.pending (c.kind, j) =
        pendingOf self.pending (c.kind, j) := by
  induction links generalizing idx self out with
  | nil => exact ⟨rfl, rfl, fun c j => rfl⟩
  | cons l links ih =>
    obtain ⟨hframe, hlen, hother⟩ := ih (idx + 1) (self.observeLink fmt idx l emit).1
      (out ++ (self.observeLink fmt idx l emit).2)
    refine ⟨hframe, hlen.trans (List.length_set ..), fun c j => ?_⟩
    exact (hother c j).trans (observeLink_pending_other fmt self idx l emit c j)

/-! ## Taking note -/

omit [Floating F] in
theorem grown_links : (self.grown obs).links.getD j .default = self.links.getD j .default := by
  show (self.links ++ List.replicate _ _).getD j _ = _
  rw [List.getD_eq_getElem?_getD, List.getD_eq_getElem?_getD]
  by_cases hold : j < self.links.length
  · rw [List.getElem?_append_left hold]
  · rw [List.getElem?_append_right (Nat.le_of_not_lt hold), List.getElem?_eq_none
      (Nat.le_of_not_lt hold), List.getElem?_replicate]
    split
    · rfl
    · rfl

omit [Floating F] in
theorem observeGlobals_pending (c : Counter) :
    pendingOf (self.observeGlobals obs) c.key =
      pendingOf self.pending c.key +
        match c with
        | .link _ _ => 0
        | .tunnel g => rise (g.value obs) (g.kept self) := by
  show pendingOf (addDelta (addDelta (addDelta (addDelta (addDelta _ _ _ _ _) _ _ _ _) _ _ _ _)
    _ _ _ _) _ _ _ _) _ = _
  rw [pendingOf_addDelta, pendingOf_addDelta, pendingOf_addDelta, pendingOf_addDelta,
    pendingOf_addDelta]
  cases c with
  | link c idx =>
    cases c with
    | _ => simp [Counter.key, LinkCounter.kind]
  | tunnel g =>
    cases g with
    | _ => simp [Counter.key, GlobalCounter.kind, GlobalCounter.value, GlobalCounter.kept]

/-- The state after the loop over the links. -/
def swept (self : EventDetector) (obs : Obs F) : EventDetector :=
  (observeLinks fmt self.seeded 0 obs.links (self.grown obs) []).1

theorem swept_frame :
    (swept fmt self obs).seeded = self.seeded ∧
      (swept fmt self obs).lastEmitMs = self.lastEmitMs ∧
      (∀ c : GlobalCounter, c.kept (swept fmt self obs) = c.kept self) ∧
      (∀ (c : GlobalCounter) j,
        pendingOf (swept fmt self obs).pending (c.kind, j) =
          pendingOf self.pending (c.kind, j)) := by
  obtain ⟨hframe, -, hother⟩ := observeLinks_frame fmt self.seeded 0 obs.links
    (self.grown obs) []
  refine ⟨?_, ?_, fun c => ?_, hother⟩
  · rw [swept, hframe]
    rfl
  · rw [swept, hframe]
    rfl
  · rw [swept, hframe]
    cases c with
    | _ => rfl

omit [Floating F] in
theorem linkAt_zero : linkAt 0 links j = links[j]? :=
  if_pos (Nat.zero_le j)

/-- What is to be told of a counter once the observation has been taken note of. -/
theorem noted_pending (hc : c.Of obs.links.length) :
    pendingOf (self.noted fmt obs).1.pending c.key =
      pendingOf self.pending c.key +
        if self.seeded = true then rise (c.value obs) (c.kept self) else 0 := by
  obtain ⟨hseeded, -, hkept, hother⟩ := swept_frame fmt self obs
  show pendingOf (if (swept fmt self obs).seeded then (swept fmt self obs).observeGlobals obs
    else (swept fmt self obs).pending) c.key = _
  rw [hseeded]
  cases c with
  | link c idx =>
    have hloop := observeLinks_pending fmt self.seeded 0 obs.links (self.grown obs) []
      c idx
    rw [linkAt_zero, List.getElem?_eq_getElem hc, Option.elim_some, grown_links] at hloop
    have hvalue : (Counter.link c idx).value obs = c.value (obs.links.get ⟨idx, hc⟩) := by
      show (obs.links[idx]?).elim 0 _ = _
      rw [List.getElem?_eq_getElem hc]
      rfl
    rw [hvalue]
    by_cases hon : self.seeded = true
    · rw [if_pos hon, observeGlobals_pending]
      exact (UInt64.add_zero _).trans hloop
    · rw [if_neg hon]
      exact hloop
  | tunnel g =>
    by_cases hon : self.seeded = true
    · rw [if_pos hon, if_pos hon, observeGlobals_pending]
      show _ + rise (g.value obs) (g.kept (swept fmt self obs)) = _
      rw [hkept]
      exact congrArg (· + _) (hother g GLOBAL)
    · rw [if_neg hon, if_neg hon, UInt64.add_zero]
      exact hother g GLOBAL

/-- What is remembered of a counter. -/
theorem noted_kept (hc : c.Of obs.links.length) : c.kept (self.noted fmt obs).1 = c.value obs := by
  cases c with
  | link c idx =>
    have hlen : 0 + obs.links.length ≤ (self.grown obs).links.length := by
      show _ ≤ (self.links ++ List.replicate _ _).length
      rw [List.length_append, List.length_replicate]
      omega
    have hloop := observeLinks_kept fmt self.seeded 0 obs.links (self.grown obs) []
      hlen c idx
    rw [linkAt_zero, List.getElem?_eq_getElem hc] at hloop
    show _ = (obs.links[idx]?).elim 0 _
    rw [List.getElem?_eq_getElem hc]
    exact hloop
  | tunnel g =>
    cases g with
    | _ => rfl

end

/-! ## Telling -/

section

variable {nowMs : UInt64} {names : List String} {self : EventDetector} {key : CounterKey}

theorem pendingOf_erase {pending : Counters} {key' : CounterKey} (h : key' ≠ key) :
    pendingOf (pending.erase key) key' = pendingOf pending key' := by
  rw [pendingOf, AList.lookup_erase_ne h]
  rfl

/-- The events for some keys. -/
def eventsFor (pending : Counters) (names : List String) (keys : List CounterKey) :
    List NewEvent :=
  keys.flatMap fun key => (counterEvent key (pendingOf pending key) names[key.2]?).toList

/-- The loop of `flush_counters` over different keys. -/
theorem foldl_flushKey {keys : List CounterKey} (hkeys : keys.Nodup) (self : EventDetector)
    (out : List NewEvent) :
    keys.foldl (flushKey nowMs names) (self, out) =
      ({ self with
          pending := eraseAll self.pending keys
          lastEmitMs := insertAll self.lastEmitMs nowMs keys },
        out ++ eventsFor self.pending names keys) := by
  induction keys generalizing self out with
  | nil => rw [eventsFor, List.flatMap_nil, List.append_nil]; rfl
  | cons key keys ih =>
    obtain ⟨hnew, hrest⟩ := List.nodup_cons.mp hkeys
    have hsame : eventsFor (self.pending.erase key) names keys =
        eventsFor self.pending names keys := by
      refine List.flatMap_congr fun key' hkey' => ?_
      have hne : key' ≠ key := fun h => hnew (h ▸ hkey')
      rw [pendingOf_erase hne]
    rw [List.foldl_cons, flushKey, ih hrest]
    refine Prod.ext rfl ?_
    show out ++ _ ++ eventsFor (self.pending.erase key) names keys = _
    rw [hsame, eventsFor, eventsFor, List.flatMap_cons, List.append_assoc]
    rfl

theorem mem_dueKeys :
    key ∈ self.dueKeys nowMs ↔
      ∃ n, self.pending.lookup key = some n ∧ self.isDue nowMs key n = true := by
  unfold dueKeys
  rw [List.mem_insertionSort, List.mem_map]
  constructor
  · rintro ⟨⟨k, n⟩, hmem, rfl⟩
    obtain ⟨hentry, hdue⟩ := List.mem_filter.mp hmem
    exact ⟨n, AList.mem_lookup_iff.mpr hentry, hdue⟩
  · rintro ⟨n, hlookup, hdue⟩
    exact ⟨⟨key, n⟩, List.mem_filter.mpr ⟨AList.mem_lookup_iff.mp hlookup, hdue⟩, rfl⟩

theorem nodup_dueKeys (self : EventDetector) (nowMs : UInt64) : (self.dueKeys nowMs).Nodup := by
  refine (List.perm_insertionSort _ _).nodup_iff.mpr ?_
  exact List.Nodup.sublist (List.filter_sublist.map Sigma.fst) self.pending.keys_nodup

/-- A pass that makes something at one key only. -/
theorem flatMap_at {α : Type*} (key : CounterKey) {keys : List CounterKey} (hkeys : keys.Nodup)
    {f : CounterKey → List α} (hf : ∀ key' ∈ keys, key' ≠ key → f key' = []) :
    keys.flatMap f = if key ∈ keys then f key else [] := by
  induction keys with
  | nil => rfl
  | cons key' keys ih =>
    obtain ⟨hnew, hrest⟩ := List.nodup_cons.mp hkeys
    rw [List.flatMap_cons, ih hrest fun k hk => hf k (List.mem_cons_of_mem _ hk)]
    by_cases hsame : key = key'
    · rw [hsame, if_neg hnew, if_pos (List.mem_cons_self ..), List.append_nil]
    · rw [hf key' (List.mem_cons_self ..) (Ne.symm hsame), List.nil_append]
      simp only [List.mem_cons, hsame, false_or]

end

/-! ## Whose event it is -/

/-- The kinds that are counted for each link. -/
def EventKind.ofLink : EventKind → Bool
  | .TxQueueFull | .SendFailure | .Reroute | .WireguardError => true
  | _ => false

/-- The kinds that are counted at all. -/
def EventKind.counts (kind : EventKind) : Bool := (counterText kind "" "").isSome

/-- A key of a tunnel with `n` links. -/
def KeyOk (n : Nat) (key : CounterKey) : Prop :=
  if key.1.ofLink = true then key.2 < n else key.2 = GLOBAL

def KeysOk (n : Nat) (pending : Counters) : Prop := ∀ key ∈ pending, KeyOk n key

theorem Counter.counts (c : Counter) : c.key.1.counts = true := by
  cases c with
  | link c idx =>
    cases c with
    | _ => rfl
  | tunnel g =>
    cases g with
    | _ => rfl

theorem Counter.Of.keyOk {n : Nat} {c : Counter} (hc : c.Of n) : KeyOk n c.key := by
  cases c with
  | link c idx =>
    cases c with
    | _ => exact hc
  | tunnel g =>
    cases g with
    | _ => rfl

/-- The events that `flush_counters` makes for a key. -/
def told (names : List String) (key : CounterKey) (events : List NewEvent) : List NewEvent :=
  events.filter fun e => e.kind = key.1 ∧ e.link = names[key.2]?

section

variable {n : Nat} {names : List String} {key key' : CounterKey} {pending : Counters}

theorem keysOk_addDelta (h : KeysOk n pending) {kind : EventKind} {idx : Nat}
    (hkey : KeyOk n (kind, idx)) (now prev : UInt64) :
    KeysOk n (addDelta pending kind idx now prev) := by
  unfold addDelta
  split
  · intro key hmem
    rcases AList.mem_insert _ |>.mp hmem with rfl | hmem
    · exact hkey
    · exact h key hmem
  · exact h

theorem keysOk_eraseAll (h : KeysOk n pending) (keys : List CounterKey) :
    KeysOk n (eraseAll pending keys) := by
  intro key hmem
  refine h key ?_
  rw [← AList.lookup_isSome, lookup_eraseAll] at hmem
  split at hmem
  · cases hmem
  · exact AList.lookup_isSome.mp hmem

theorem counterEvent_some {count : UInt64} {link : Option String} {e : NewEvent}
    (h : counterEvent key count link = some e) : e.kind = key.1 ∧ e.link = link := by
  unfold counterEvent at h
  split at h
  · cases h
  · obtain ⟨t, -, rfl⟩ := Option.map_eq_some_iff.mp h
    exact ⟨rfl, rfl⟩

/-- The kind and the link of an event belong to one key. -/
theorem key_eq (hnames : names.Nodup) (hkey : KeyOk names.length key)
    (hkey' : KeyOk names.length key') (hkind : key'.1 = key.1)
    (hlink : names[key'.2]? = names[key.2]?) : key' = key := by
  refine Prod.ext hkind ?_
  unfold KeyOk at hkey hkey'
  rw [hkind] at hkey'
  by_cases hof : key.1.ofLink = true
  · rw [if_pos hof] at hkey'
    exact (List.getElem?_inj hkey' hnames).mp hlink
  · rw [if_neg hof] at hkey hkey'
    exact hkey'.trans hkey.symm

/-- What is told of one key is what is made for this key. -/
theorem told_eventsFor (hnames : names.Nodup) {keys : List CounterKey} (hkeys : keys.Nodup)
    (hall : ∀ key' ∈ keys, KeyOk names.length key') (hkey : KeyOk names.length key) :
    told names key (eventsFor pending names keys) =
      if key ∈ keys then (counterEvent key (pendingOf pending key) names[key.2]?).toList
      else [] := by
  unfold told eventsFor
  rw [List.filter_flatMap, flatMap_at key hkeys]
  · congr 1
    refine List.filter_eq_self.mpr fun e he => decide_eq_true ?_
    exact counterEvent_some (Option.mem_toList.mp he)
  · intro key' hmem hne
    refine List.filter_eq_nil_iff.mpr fun e he hsame => hne ?_
    obtain ⟨hkind, hlink⟩ := counterEvent_some (Option.mem_toList.mp he)
    obtain ⟨hkind', hlink'⟩ := of_decide_eq_true hsame
    exact key_eq hnames hkey (hall key' hmem) (hkind.symm.trans hkind') (hlink.symm.trans hlink')

theorem told_append (names : List String) (key : CounterKey) (events events' : List NewEvent) :
    told names key (events ++ events') = told names key events ++ told names key events' :=
  List.filter_append ..

end

section

variable {F : Type*} [Floating F] (fmt : F → String)

/-- No event of the list is about a counter. -/
def Silent (events : List NewEvent) : Prop := ∀ e ∈ events, e.kind.counts = false

theorem Silent.append {events events' : List NewEvent} (h : Silent events) (h' : Silent events') :
    Silent (events ++ events') := fun e he => (List.mem_append.mp he).elim (h e) (h' e)

theorem Silent.told {events : List NewEvent} (h : Silent events) (names : List String)
    (c : Counter) : told names c.key events = [] := by
  refine List.filter_eq_nil_iff.mpr fun e he hsame => ?_
  have hcounts := h e he
  rw [(of_decide_eq_true hsame).1, c.counts] at hcounts
  cases hcounts

theorem silent_toList {e : Option NewEvent} (h : ∀ e' ∈ e, e'.kind.counts = false) :
    Silent e.toList := fun e' he' => h e' (Option.mem_toList.mp he')

omit [Floating F] in
theorem stateEvent_silent (t : LinkTrack) (l : LinkObs F) : Silent (stateEvent t l).toList := by
  refine silent_toList fun e he => ?_
  obtain ⟨prev, -, he⟩ := Option.bind_eq_some_iff.mp he
  rcases l with ⟨name, state, _⟩
  cases state with
  | Up =>
    cases prev with
    | Up => cases he
    | Probing =>
      cases hever : t.everUp with
      | _ => simp only [hever] at he; cases he; rfl
    | Down =>
      cases hever : t.everUp with
      | _ => simp only [hever] at he; cases he; rfl
  | Down =>
    cases prev with
    | Down => cases he
    | _ => cases he; rfl
  | Probing =>
    cases prev with
    | _ => cases he

theorem linkEvents_silent (t : LinkTrack) (l : LinkObs F) : Silent (linkEvents fmt t l) := by
  refine ((stateEvent_silent t l).append ?_).append (silent_toList fun e he => ?_)
  · split
    · refine (silent_toList fun e he => ?_).append (silent_toList fun e he => ?_)
      · unfold congestionEvent at he
        split at he
        · cases he; rfl
        · split at he
          · cases he; rfl
          · cases he
      · obtain ⟨loss, -, he⟩ := Option.bind_eq_some_iff.mp he
        split at he
        · cases he; rfl
        · split at he
          · cases he; rfl
          · cases he
    · exact fun e he => absurd he List.not_mem_nil
  · unfold handshakeEvent at he
    split at he
    · cases he; rfl
    · split at he
      · cases he; rfl
      · cases he
    · cases he

theorem observeLinks_silent (emit : Bool) (idx : Nat) (links : List (LinkObs F))
    (self : EventDetector) (out : List NewEvent) (hout : Silent out) :
    Silent (observeLinks fmt emit idx links self out).2 := by
  induction links generalizing idx self out with
  | nil => exact hout
  | cons l links ih =>
    refine ih _ _ _ (hout.append ?_)
    cases emit with
    | true => exact linkEvents_silent fmt _ l
    | false => exact fun e he => absurd he List.not_mem_nil

theorem noted_silent (self : EventDetector) (obs : Obs F) : Silent (self.noted fmt obs).2 := by
  have hlinks := observeLinks_silent fmt self.seeded 0 obs.links (self.grown obs) []
    fun e he => absurd he List.not_mem_nil
  show Silent (if (swept fmt self obs).seeded then
    _ ++ ((swept fmt self obs).mtuEvent obs).toList else _)
  split
  · refine hlinks.append (silent_toList fun e he => ?_)
    unfold mtuEvent at he
    split at he
    · cases he; rfl
    · cases he
  · exact hlinks

/-! ## Keys -/

theorem observeLinks_keysOk {n : Nat} (emit : Bool) (idx : Nat) (links : List (LinkObs F))
    (self : EventDetector) (out : List NewEvent) (hlen : idx + links.length ≤ n)
    (hkeys : KeysOk n self.pending) :
    KeysOk n (observeLinks fmt emit idx links self out).1.pending := by
  induction links generalizing idx self out with
  | nil => exact hkeys
  | cons l links ih =>
    rw [List.length_cons] at hlen
    have hidx : idx < n := by omega
    refine ih _ _ _ (by omega) ?_
    cases emit with
    | false => exact hkeys
    | true =>
      refine keysOk_addDelta (keysOk_addDelta (keysOk_addDelta (keysOk_addDelta hkeys ?_ _ _)
        ?_ _ _) ?_ _ _) ?_ _ _
      · exact hidx
      · exact hidx
      · exact hidx
      · exact hidx

theorem noted_keysOk {n : Nat} {self : EventDetector} {obs : Obs F} (hlen : obs.links.length ≤ n)
    (hkeys : KeysOk n self.pending) : KeysOk n (self.noted fmt obs).1.pending := by
  have hlinks := observeLinks_keysOk fmt self.seeded 0 obs.links (self.grown obs) []
    ((Nat.zero_add _).trans_le hlen) hkeys
  show KeysOk n (if (swept fmt self obs).seeded then (swept fmt self obs).observeGlobals obs
    else (swept fmt self obs).pending)
  split
  · refine keysOk_addDelta (keysOk_addDelta (keysOk_addDelta (keysOk_addDelta (keysOk_addDelta
      hlinks ?_ _ _) ?_ _ _) ?_ _ _) ?_ _ _) ?_ _ _
    · rfl
    · rfl
    · rfl
    · rfl
    · rfl
  · exact hlinks

end

/-! ## One observation -/

/-- The number in an event. -/
def NewEvent.count (e : NewEvent) : Nat :=
  (e.fields.lookup "count").elim 0 fun s => Nat.ofDigitChars 10 s.toList 0

theorem counterEvent_counter (c : Counter) (n : UInt64) (link : Option String) :
    ∃ e, counterEvent c.key n link = some e ∧ e.count = n.toNat := by
  have hcount : (([("count", n.toNat.repr)] : List (String × String)).lookup "count").elim 0
      (fun s => Nat.ofDigitChars 10 s.toList 0) = n.toNat := by
    rw [List.lookup_cons_self, Option.elim_some, Nat.repr, String.toList_ofList]
    exact Nat.ofDigitChars_ten_toDigits ..
  cases c with
  | link c idx =>
    cases c with
    | _ => exact ⟨_, rfl, hcount⟩
  | tunnel g =>
    cases g with
    | _ => exact ⟨_, rfl, hcount⟩

/-- What happens to the amount `n` that is to be told of a counter: it stays, or it is told. -/
inductive Outcome (self next : EventDetector) (events : List NewEvent) (nowMs : UInt64)
    (key : CounterKey) (n : UInt64) : Prop
  | kept (hnone : events = []) (hpending : pendingOf next.pending key = n)
      (hlast : next.lastEmitMs.lookup key = self.lastEmitMs.lookup key)
  | told (e : NewEvent) (hone : events = [e]) (hcount : e.count = n.toNat)
      (hpending : pendingOf next.pending key = 0)
      (hlast : next.lastEmitMs.lookup key = some nowMs)
      (hago : ∀ t, self.lastEmitMs.lookup key = some t →
        COUNTER_THROTTLE_MS ≤ nowMs.toNat - t.toNat)

section

variable {F : Type*} [Floating F] (fmt : F → String) {names : List String}

theorem observe_eq (self : EventDetector) (obs : Obs F) :
    self.observe fmt obs =
      ({ (self.noted fmt obs).1 with
          pending := eraseAll (self.noted fmt obs).1.pending
            ((self.noted fmt obs).1.dueKeys obs.nowMs)
          lastEmitMs := insertAll (self.noted fmt obs).1.lastEmitMs obs.nowMs
            ((self.noted fmt obs).1.dueKeys obs.nowMs) },
        (self.noted fmt obs).2 ++ eventsFor (self.noted fmt obs).1.pending
          (obs.links.map LinkObs.name) ((self.noted fmt obs).1.dueKeys obs.nowMs)) :=
  foldl_flushKey (nodup_dueKeys _ _) _ _

theorem noted_lastEmitMs (self : EventDetector) (obs : Obs F) :
    (self.noted fmt obs).1.lastEmitMs = self.lastEmitMs :=
  (swept_frame fmt self obs).2.1

/-- One observation, for one counter. -/
theorem observe_counter (hnames : names.Nodup) {self : EventDetector} {obs : Obs F}
    (hlinks : obs.links.map LinkObs.name = names) (hkeys : KeysOk names.length self.pending)
    {c : Counter} (hc : c.Of names.length) :
    Outcome self (self.observe fmt obs).1 (told names c.key (self.observe fmt obs).2) obs.nowMs
      c.key (pendingOf self.pending c.key +
        if self.seeded = true then rise (c.value obs) (c.kept self) else 0) := by
  have hlen : obs.links.length = names.length := by rw [← hlinks, List.length_map]
  have hnoted := noted_keysOk fmt (le_of_eq hlen) hkeys
  have hall : ∀ key ∈ (self.noted fmt obs).1.dueKeys obs.nowMs, KeyOk names.length key := by
    intro key hkey
    obtain ⟨n, hn, -⟩ := mem_dueKeys.mp hkey
    exact hnoted key (mem_of_lookup hn)
  rw [← noted_pending fmt self obs (hlen ▸ hc), observe_eq, hlinks]
  have htold : told names c.key ((self.noted fmt obs).2 ++ eventsFor (self.noted fmt obs).1.pending
      names ((self.noted fmt obs).1.dueKeys obs.nowMs)) = _ :=
    (told_append ..).trans (congrArg₂ _ ((noted_silent fmt self obs).told names c)
      (told_eventsFor hnames (nodup_dueKeys _ _) hall hc.keyOk))
  by_cases hdue : c.key ∈ (self.noted fmt obs).1.dueKeys obs.nowMs
  · obtain ⟨n, hn, hisDue⟩ := mem_dueKeys.mp hdue
    obtain ⟨e, he, hcount⟩ := counterEvent_counter c
      (pendingOf (self.noted fmt obs).1.pending c.key) names[c.key.2]?
    rw [if_pos hdue, he] at htold
    refine .told e htold hcount ?_ ?_ fun t ht => ?_
    · rw [pendingOf, lookup_eraseAll, if_pos hdue]
      rfl
    · rw [lookup_insertAll, if_pos hdue]
    · have hlong := (Bool.and_eq_true_iff.mp hisDue).2
      rw [noted_lastEmitMs, ht] at hlong
      exact of_decide_eq_true hlong
  · rw [if_neg hdue] at htold
    refine .kept htold ?_ ?_
    · rw [pendingOf, lookup_eraseAll, if_neg hdue]
      rfl
    · rw [lookup_insertAll, if_neg hdue, noted_lastEmitMs]

/-- What else an observation leaves behind. -/
theorem observe_frame {self : EventDetector} {obs : Obs F}
    (hlinks : obs.links.map LinkObs.name = names) (hkeys : KeysOk names.length self.pending)
    {c : Counter} (hc : c.Of names.length) :
    KeysOk names.length (self.observe fmt obs).1.pending ∧
      (self.observe fmt obs).1.seeded = true ∧
      c.kept (self.observe fmt obs).1 = c.value obs := by
  have hlen : obs.links.length = names.length := by rw [← hlinks, List.length_map]
  rw [observe_eq]
  refine ⟨keysOk_eraseAll (noted_keysOk fmt (le_of_eq hlen) hkeys) _, rfl, ?_⟩
  rw [← noted_kept fmt self obs (hlen ▸ hc)]
  cases c with
  | link c idx => rfl
  | tunnel g =>
    cases g with
    | _ => rfl

end

/-! ## Runs -/

/-- What a counter has gained from each value to the next. -/
def increases : List UInt64 → Nat
  | u :: v :: vs => (v.toNat - u.toNat) + increases (v :: vs)
  | _ => 0

theorem increases_snoc (vs : List UInt64) (v : UInt64) :
    increases (vs ++ [v]) =
      increases vs + vs.getLast?.elim 0 fun u => v.toNat - u.toNat := by
  induction vs with
  | nil => rfl
  | cons u vs ih =>
    cases vs with
    | nil => exact Nat.add_comm _ _
    | cons u' vs =>
      rw [List.cons_append, List.cons_append, increases, ← List.cons_append, ih, increases,
        List.getLast?_cons_cons, Nat.add_assoc]

theorem toNat_rise (now prev : UInt64) : (rise now prev).toNat = now.toNat - prev.toNat := by
  unfold rise
  split
  case isTrue h => exact UInt64.toNat_sub_of_le _ _ (UInt64.le_of_lt h)
  case isFalse h =>
    exact (Nat.sub_eq_zero_of_le (UInt64.le_iff_toNat_le.mp (UInt64.not_lt.mp h))).symm

section

variable {F : Type*} {names : List String} {c : Counter}

/-- What has been told of a key, each event with its time. -/
def toldAll (names : List String) (key : CounterKey) (h : List (Obs F × List NewEvent)) :
    List (UInt64 × NewEvent) :=
  h.flatMap fun e => (told names key e.2).map fun event => (e.1.nowMs, event)

/-- The sum of the counts. -/
def emitted (names : List String) (key : CounterKey) (h : List (Obs F × List NewEvent)) : Nat :=
  ((toldAll names key h).map fun p => p.2.count).sum

theorem toldAll_snoc (names : List String) (key : CounterKey)
    (h : List (Obs F × List NewEvent)) (e : Obs F × List NewEvent) :
    toldAll names key (h ++ [e]) =
      toldAll names key h ++ (told names key e.2).map fun event => (e.1.nowMs, event) := by
  rw [toldAll, List.flatMap_append, List.flatMap_singleton]
  rfl

/-- What the counter has gained since the last observation. -/
def gained (c : Counter) (h : List (Obs F × List NewEvent)) (o : Obs F) : UInt64 :=
  h.getLast?.elim 0 fun e => rise (c.value o) (c.value e.1)

variable [Floating F] (fmt : F → String)

/-- The detector remembers the counter's last value, and when it last told of it. -/
structure Inv (names : List String) (c : Counter) (h : List (Obs F × List NewEvent))
    (d : EventDetector) : Prop where
  keys : KeysOk names.length d.pending
  remembers : h.getLast?.elim (d.seeded = false) fun e =>
    d.seeded = true ∧ c.kept d = c.value e.1
  last : ∀ p ∈ toldAll names c.key h, ∃ t, d.lastEmitMs.lookup c.key = some t ∧ p.1 ≤ t
  spaced : (toldAll names c.key h).Pairwise fun p q =>
    p.1.toNat + COUNTER_THROTTLE_MS ≤ q.1.toNat

/-- The links are the same ones, and the time does not go back. -/
def Expected (names : List String) (h : List (Obs F × List NewEvent)) (o : Obs F) : Prop :=
  o.links.map LinkObs.name = names ∧ ∀ e ∈ h, e.1.nowMs ≤ o.nowMs

variable {h : List (Obs F × List NewEvent)} {self : EventDetector}

omit [Floating F] in
theorem Inv.gained_eq (hinv : Inv names c h self) (o : Obs F) :
    (if self.seeded = true then rise (c.value o) (c.kept self) else 0) = gained c h o := by
  have hrem := hinv.remembers
  unfold gained
  cases hlast : h.getLast? with
  | none =>
    rw [hlast] at hrem
    rw [if_neg (Bool.not_eq_true _ |>.mpr hrem)]
    rfl
  | some e =>
    rw [hlast] at hrem
    rw [if_pos hrem.1, hrem.2]
    rfl

variable {o : Obs F}

theorem inv_outcome (hnames : names.Nodup) (hc : c.Of names.length)
    (hinv : Inv names c h self) (hexp : Expected names h o) :
    Outcome self (self.observe fmt o).1 (told names c.key (self.observe fmt o).2) o.nowMs c.key
      (pendingOf self.pending c.key + gained c h o) := by
  rw [← hinv.gained_eq]
  exact observe_counter fmt hnames hexp.1 hinv.keys hc

theorem inv_step (hnames : names.Nodup) (hc : c.Of names.length) (h : List (Obs F × List NewEvent))
    (self : EventDetector) (o : Obs F) (hinv : Inv names c h self) (hexp : Expected names h o) :
    Inv names c (h ++ [(o, (self.observe fmt o).2)]) (self.observe fmt o).1 := by
  obtain ⟨hkeys, hseeded, hkept⟩ := observe_frame fmt hexp.1 hinv.keys hc
  have hrem : (h ++ [(o, (self.observe fmt o).2)]).getLast?.elim
      ((self.observe fmt o).1.seeded = false)
      (fun e => (self.observe fmt o).1.seeded = true ∧
        c.kept (self.observe fmt o).1 = c.value e.1) := by
    rw [List.getLast?_append, List.getLast?_singleton]
    exact ⟨hseeded, hkept⟩
  have hsnoc := toldAll_snoc names c.key h (o, (self.observe fmt o).2)
  cases inv_outcome fmt hnames hc hinv hexp with
  | kept hnone _ hlast =>
    rw [hnone, List.map_nil, List.append_nil] at hsnoc
    refine ⟨hkeys, hrem, ?_, ?_⟩
    · rw [hsnoc, hlast]
      exact hinv.last
    · rw [hsnoc]
      exact hinv.spaced
  | told e hone _ _ hlast hago =>
    rw [hone] at hsnoc
    refine ⟨hkeys, hrem, fun p hp => ⟨o.nowMs, hlast, ?_⟩, ?_⟩
    · rw [hsnoc] at hp
      rcases List.mem_append.mp hp with hp | hp
      · obtain ⟨e', he', hp⟩ := List.mem_flatMap.mp hp
        obtain ⟨event, -, rfl⟩ := List.mem_map.mp hp
        exact hexp.2 e' he'
      · rw [List.mem_singleton.mp hp]
        exact UInt64.le_refl _
    · rw [hsnoc, List.pairwise_append]
      refine ⟨hinv.spaced, List.pairwise_singleton _ _, fun p hp q hq => ?_⟩
      -- The last time is at least that of any earlier event, and two seconds ago.
      obtain ⟨t, ht, hle⟩ := hinv.last p hp
      have hfar := hago t ht
      have hle' := UInt64.le_iff_toNat_le.mp hle
      rw [List.mem_singleton.mp hq]
      show _ ≤ o.nowMs.toNat
      unfold COUNTER_THROTTLE_MS at *
      omega

/-- An observation moves what it adds from the counter to what is to be told or has been told. -/
theorem emitted_step (hnames : names.Nodup) (hc : c.Of names.length)
    (hinv : Inv names c h self) (hexp : Expected names h o) :
    emitted names c.key (h ++ [(o, (self.observe fmt o).2)]) +
        (pendingOf (self.observe fmt o).1.pending c.key).toNat =
      emitted names c.key h + (pendingOf self.pending c.key + gained c h o).toNat := by
  have hsnoc := toldAll_snoc names c.key h (o, (self.observe fmt o).2)
  unfold emitted
  cases inv_outcome fmt hnames hc hinv hexp with
  | kept hnone hpending _ => rw [hsnoc, hnone, hpending, List.map_nil, List.append_nil]
  | told e hone hcount hpending _ _ =>
    rw [hsnoc, hone, hpending, List.map_append, List.sum_append]
    show _ + (e.count + 0) + 0 = _
    rw [hcount, Nat.add_zero, Nat.add_zero]

omit [Floating F] in
theorem increases_step (c : Counter) (h : List (Obs F × List NewEvent))
    (o : Obs F) (out : List NewEvent) :
    increases ((h ++ [(o, out)]).map fun e => c.value e.1) =
      increases (h.map fun e => c.value e.1) + (gained c h o).toNat := by
  rw [List.map_append, List.map_singleton, increases_snoc, List.getLast?_map, gained]
  cases h.getLast? with
  | none => rfl
  | some e => exact congrArg (_ + ·) (toNat_rise _ _).symm

/-- What is to be told and what is added to it fit into 64 bits together. -/
def Fits (c : Counter) (self : EventDetector) (o : Obs F) : Prop :=
  (pendingOf self.pending c.key).toNat + ((c.value o).toNat - (c.kept self).toNat) < 2 ^ 64

instance decidableFits (c : Counter) (self : EventDetector) (o : Obs F) :
    Decidable (Fits c self o) := inferInstanceAs (Decidable (_ < _))

omit [Floating F] in
theorem Fits.toNat_add (hfits : Fits c self o) (hinv : Inv names c h self) :
    (pendingOf self.pending c.key + gained c h o).toNat =
      (pendingOf self.pending c.key).toNat + (gained c h o).toNat := by
  have hle : (gained c h o).toNat ≤ (c.value o).toNat - (c.kept self).toNat := by
    rw [← hinv.gained_eq]
    split
    · rw [toNat_rise]
    · exact Nat.zero_le _
  rw [UInt64.toNat_add]
  exact Nat.mod_eq_of_lt (lt_of_le_of_lt (Nat.add_le_add_left hle _) hfits)

omit [Floating F] in
theorem inv_new (names : List String) (c : Counter) :
    Inv names c ([] : List (Obs F × List NewEvent)) EventDetector.new where
  keys := fun key hkey => absurd hkey (AList.notMem_empty key)
  remembers := rfl
  last := fun _ hp => absurd hp List.not_mem_nil
  spaced := List.Pairwise.nil

/-- **Nothing is lost.**  What has been told of a counter and what is to be told of it come to
what it has gained, up to multiples of `2 ^ 64`, and exactly so when what is to be told has
always fitted into 64 bits.  What is told of it is told at least two seconds apart. -/
theorem counters_conserved (hnames : names.Nodup) {obs : List (Obs F)}
    (hlinks : ∀ o ∈ obs, o.links.map LinkObs.name = names)
    (horder : obs.Pairwise fun o o' => o.nowMs ≤ o'.nowMs) (hc : c.Of names.length) :
    (emitted names c.key (Mealy.log (EventDetector.observe fmt) .new obs) +
        (pendingOf (Mealy.run (EventDetector.observe fmt) .new obs).pending c.key).toNat) % 2 ^ 64 =
      increases (obs.map fun o => c.value o) % 2 ^ 64 ∧
    (Mealy.Along (EventDetector.observe fmt) (fun _ self o => Fits c self o) [] .new obs →
      emitted names c.key (Mealy.log (EventDetector.observe fmt) .new obs) +
          (pendingOf (Mealy.run (EventDetector.observe fmt) .new obs).pending c.key).toNat =
        increases (obs.map fun o => c.value o)) ∧
    (toldAll names c.key (Mealy.log (EventDetector.observe fmt) .new obs)).Pairwise fun p q =>
      p.1.toNat + COUNTER_THROTTLE_MS ≤ q.1.toNat := by
  have hexp : Mealy.Along (EventDetector.observe fmt) (fun h _ o => Expected names h o) [] .new
      obs :=
    Mealy.along_and (Mealy.along_of_forall (fun _ _ _ h => h) hlinks)
      (Mealy.along_of_pairwise EventDetector.new horder)
  have hvalues : increases ((Mealy.log (EventDetector.observe fmt) .new obs).map fun e =>
      c.value e.1) = increases (obs.map fun o => c.value o) := by
    rw [show (fun e : Obs F × List NewEvent => c.value e.1) = (fun o => c.value o) ∘ Prod.fst
      from rfl, ← List.map_map, Mealy.map_fst_log]
  refine ⟨?_, fun hfits => ?_, ?_⟩
  · rw [← hvalues]
    refine (Mealy.invariant_along (I := fun h d => Inv names c h d ∧
      (emitted names c.key h + (pendingOf d.pending c.key).toNat) % 2 ^ 64 =
        increases (h.map fun e => c.value e.1) % 2 ^ 64) ?_ ⟨inv_new names c, rfl⟩ hexp).2
    rintro h d o ⟨hinv, hsum⟩ hstep
    refine ⟨inv_step fmt hnames hc h d o hinv hstep, ?_⟩
    rw [emitted_step fmt hnames hc hinv hstep, increases_step, UInt64.toNat_add]
    omega
  · rw [← hvalues]
    refine (Mealy.invariant_along (I := fun h d => Inv names c h d ∧
      emitted names c.key h + (pendingOf d.pending c.key).toNat =
        increases (h.map fun e => c.value e.1)) ?_ ⟨inv_new names c, rfl⟩
      (Mealy.along_and hexp hfits)).2
    rintro h d o ⟨hinv, hsum⟩ ⟨hstep, hfit⟩
    refine ⟨inv_step fmt hnames hc h d o hinv hstep, ?_⟩
    rw [emitted_step fmt hnames hc hinv hstep, increases_step, hfit.toNat_add hinv,
      ← Nat.add_assoc, hsum]
  · exact (Mealy.invariant_along (inv_step fmt hnames hc) (inv_new names c) hexp).spaced

end

/-- An observation of one link, all quiet but for its transmit queue. -/
def queueAt (nowMs queueFull : UInt64) : Obs ℚ where
  nowMs
  links := [⟨"a", .Up, false, none, queueFull, 0, 0, 0, none⟩]
  fecRecovered := 0
  fecUnrecoverable := 0
  outboundDropped := 0
  tunDropped := 0
  reorderTimeouts := 0
  mtu := 1400

theorem counters_conserved_throttled :
    emitted ["a"] (.TxQueueFull, 0) (Mealy.log (EventDetector.observe fun _ => "") .new
        [queueAt 0 7, queueAt 100 9, queueAt 200 4, queueAt 300 10]) +
      (pendingOf (Mealy.run (EventDetector.observe fun _ => "") .new
        [queueAt 0 7, queueAt 100 9, queueAt 200 4, queueAt 300 10]).pending
          (.TxQueueFull, 0)).toNat = 8 :=
  (counters_conserved (c := .link .queueFull 0) (fun _ => "") (by decide) (by decide)
    (by decide) (by exact Nat.one_pos)).2.1
    ⟨by decide +kernel, by decide +kernel, by decide +kernel, by decide +kernel, trivial⟩

/-- The counter goes from `0` to `2 ^ 64 - 1` three times; all but the first time, this is within
the two seconds after it was told of. -/
theorem pending_wraps :
    let obs := [queueAt 0 0, queueAt 1 (-1), queueAt 2 0, queueAt 3 (-1), queueAt 4 0,
      queueAt 5 (-1)]
    (∀ o ∈ obs, o.links.map LinkObs.name = ["a"]) ∧
    (obs.Pairwise fun o o' => o.nowMs ≤ o'.nowMs) ∧
    emitted ["a"] (.TxQueueFull, 0) (Mealy.log (EventDetector.observe fun _ => "") .new obs) +
        (pendingOf (Mealy.run (EventDetector.observe fun _ => "") .new obs).pending
          (.TxQueueFull, 0)).toNat ≠
      increases (obs.map fun o => (Counter.link .queueFull 0).value o) := by
  decide +kernel

end Mlvpn.Ports.CounterEvents
