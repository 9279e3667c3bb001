import Mlvpn.Ports.Protocol
import Mlvpn.Ports.TunnelMtu
import Mlvpn.Verified.Floating

/-!
# The configuration and its validator

Port of `config::Config::validate` with the fields it reads and those that other
modules read of an accepted configuration.  The checks stand in the source's
order, each with its message.  The permissions of the key files come from outside,
as `metadata`; the advisory warning about a large `tunnel.mtu` is left out.

## Main results

* `validate_eq_ok_iff`: a configuration is accepted exactly when it is well formed
  (`WellFormed`).
-/

namespace Mlvpn.Ports.ConfigFile

open Verified Protocol

inductive Mode where
  | client
  | server
deriving Repr, DecidableEq

/-- The mode of the other end. -/
def Mode.peer : Mode → Mode
  | client => server
  | server => client

structure TunnelConfig extends TunnelMtu.TunnelConfig where
  txQueueLen : UInt32
deriving Repr, DecidableEq

structure SchedulerConfig (F : Type*) where
  downThreshold : UInt32
  upThreshold : UInt32
  redundantMode : Bool
  fecEnabled : Bool
  fecGroupSize : UInt8
  fecParity : UInt8
  primaryLinkMode : Bool
  followPeerPrimary : Bool
  reorderWindowMinMs : UInt64
  reorderWindowMaxMs : UInt64
  probeIntervalMaxMs : UInt64
  ewmaAlphaMin : F
  ewmaAlphaMax : F
  activeBandwidthProbeIntervalSecs : UInt64
  activeBandwidthProbeDurationSecs : UInt64
deriving Repr, DecidableEq

structure LinkConfig (F : Type*) where
  name : String
  localAddr : Option String
  dualStack : Bool
  remoteAddr : Option String
  weight : F
  bandwidthCapMbps : Option F
  probeIntervalMs : UInt64
  privateKeyFile : String
deriving Repr, DecidableEq

structure Config (F : Type*) where
  mode : Mode
  tunnel : TunnelConfig
  scheduler : SchedulerConfig F
  links : List (LinkConfig F)
deriving Repr, DecidableEq

/-! ## The validator -/

/-- `if bad { return Err(e) }`. -/
def reject (bad : Bool) (e : MlvpnError) : Except MlvpnError Unit :=
  if bad then .error e else .ok ()

/-- `metadata` is the file mode `fs::metadata` reports. -/
def checkPermissions (metadata : String → Except IoError UInt32) (path : String) :
    Except MlvpnError Unit :=
  match metadata path with
  | .error e => .error (.io e)
  | .ok mode =>
      let mode := mode &&& 0o777
      if mode &&& 0o077 ≠ 0 then .error (.insecurePermissions path mode) else .ok ()

variable {F : Type*} [Floating F]

/-- The checks of one link; `seenNames` are the names of the links before it. -/
def validateLink (cfg : Config F) (seenNames : List String) (link : LinkConfig F) :
    Except MlvpnError Unit := do
  reject (decide (link.name ∈ seenNames)) (.config s!"duplicate link name '{link.name}'")
  reject (decide (cfg.mode = .client) && link.remoteAddr.isNone)
    (.config s!"link '{link.name}' has no remote_addr; required in client mode")
  reject (link.dualStack && (decide (cfg.mode ≠ .server) || link.remoteAddr.isSome))
    (.config s!"link '{link.name}': dual_stack is for server-side links without remote_addr")
  reject (link.dualStack && link.localAddr.any (· ≠ "::"))
    (.config
      s!"link '{link.name}': dual_stack binds [::]; leave local_addr unset (or \"::\")")
  reject (decide (link.weight ≤ Floating.ofRat 0))
    (.config s!"link '{link.name}' weight must be > 0")
  reject (decide (cfg.scheduler.probeIntervalMaxMs < link.probeIntervalMs))
    (.config <| s!"link '{link.name}' probe_interval_ms ({link.probeIntervalMs}) must be <= " ++
      s!"scheduler.probe_interval_max_ms ({cfg.scheduler.probeIntervalMaxMs})")

def validateLinks (cfg : Config F) (seenNames : List String) :
    List (LinkConfig F) → Except MlvpnError Unit
  | [] => .ok ()
  | link :: links => do
      validateLink cfg seenNames link
      validateLinks cfg (link.name :: seenNames) links

def validateKeys (metadata : String → Except IoError UInt32) :
    List (LinkConfig F) → Except MlvpnError Unit
  | [] => .ok ()
  | link :: links => do
      checkPermissions metadata link.privateKeyFile
      validateKeys metadata links

def validateTunnel (cfg : TunnelConfig) : Except MlvpnError Unit := do
  reject (cfg.mtu.any (· < 576)) (.config "tunnel MTU must be at least 576 bytes")
  reject (decide ¬(100 ≤ cfg.txQueueLen ∧ cfg.txQueueLen ≤ 65536))
    (.config s!"tunnel.tx_queue_len ({cfg.txQueueLen}) must be between 100 and 65536")

def validateScheduler (cfg : SchedulerConfig F) : Except MlvpnError Unit := do
  reject (cfg.primaryLinkMode && cfg.redundantMode)
    (.config <| "scheduler.primary_link_mode and scheduler.redundant_mode cannot both be true " ++
      "-- send-to-one-link and send-to-every-link are contradictory strategies")
  reject (cfg.followPeerPrimary && cfg.primaryLinkMode)
    (.config <| "scheduler.follow_peer_primary and scheduler.primary_link_mode cannot both be " ++
      "true -- a host is either the primary-selection decider or a follower, not both")
  reject (cfg.followPeerPrimary && cfg.redundantMode)
    (.config <| "scheduler.follow_peer_primary and scheduler.redundant_mode cannot both be true " ++
      "-- send-to-one-link-the-peer-chose and send-to-every-link are contradictory")
  reject (cfg.fecEnabled && cfg.redundantMode)
    (.config <| "scheduler.fec_enabled and scheduler.redundant_mode cannot both be true -- both " ++
      "are strategies for recovering lost frames, and combining them spends bandwidth " ++
      "on FEC parity that redundant_mode's full duplication already makes redundant")
  reject (cfg.fecEnabled && decide ¬(2 ≤ cfg.fecGroupSize ∧ cfg.fecGroupSize ≤ 255))
    (.config s!"scheduler.fec_group_size ({cfg.fecGroupSize}) must be between 2 and 255")
  reject (cfg.fecEnabled && decide ¬(1 ≤ cfg.fecParity ∧ cfg.fecParity ≤ 2))
    (.config s!"scheduler.fec_parity ({cfg.fecParity}) must be 1 or 2")
  reject (decide (cfg.reorderWindowMaxMs < cfg.reorderWindowMinMs))
    (.config <| s!"scheduler.reorder_window_min_ms ({cfg.reorderWindowMinMs}) must be <= " ++
      s!"reorder_window_max_ms ({cfg.reorderWindowMaxMs})")
  reject (decide (cfg.ewmaAlphaMax < cfg.ewmaAlphaMin))
    (.config <| s!"scheduler.ewma_alpha_min ({Floating.display cfg.ewmaAlphaMin}) must be <= " ++
      s!"ewma_alpha_max ({Floating.display cfg.ewmaAlphaMax})")
  reject (decide (cfg.activeBandwidthProbeIntervalSecs < 30))
    (.config <| "scheduler.active_bandwidth_probe_interval_secs " ++
      s!"({cfg.activeBandwidthProbeIntervalSecs}) must be >= 30 -- this is " ++
      "an injected traffic burst, not a single latency probe, so too-frequent bursts " ++
      "look like a self-inflicted flood")
  reject (decide ¬(1 ≤ cfg.activeBandwidthProbeDurationSecs ∧
      cfg.activeBandwidthProbeDurationSecs ≤ 30))
    (.config <| "scheduler.active_bandwidth_probe_duration_secs " ++
      s!"({cfg.activeBandwidthProbeDurationSecs}) must be between 1 and 30")

def validate (metadata : String → Except IoError UInt32) (cfg : Config F) :
    Except MlvpnError Unit := do
  reject cfg.links.isEmpty (.config "at least one [[links]] entry is required")
  validateLinks cfg [] cfg.links
  validateKeys metadata cfg.links
  validateTunnel cfg.tunnel
  validateScheduler cfg.scheduler

/-! ## What is accepted -/

/-- A link with nothing wrong with it but, perhaps, its name. -/
structure LinkWellFormed (cfg : Config F) (link : LinkConfig F) : Prop where
  remote : cfg.mode = .client → link.remoteAddr ≠ none
  dualStack : link.dualStack = true →
    cfg.mode = .server ∧ link.remoteAddr = none ∧ ∀ a, link.localAddr = some a → a = "::"
  weight : ¬link.weight ≤ Floating.ofRat 0
  probeInterval : link.probeIntervalMs ≤ cfg.scheduler.probeIntervalMaxMs

structure TunnelWellFormed (cfg : TunnelConfig) : Prop where
  mtu : ∀ mtu, cfg.mtu = some mtu → 576 ≤ mtu
  txQueueLen : 100 ≤ cfg.txQueueLen ∧ cfg.txQueueLen ≤ 65536

structure SchedulerWellFormed (cfg : SchedulerConfig F) : Prop where
  primaryOrRedundant : ¬(cfg.primaryLinkMode = true ∧ cfg.redundantMode = true)
  followOrPrimary : ¬(cfg.followPeerPrimary = true ∧ cfg.primaryLinkMode = true)
  followOrRedundant : ¬(cfg.followPeerPrimary = true ∧ cfg.redundantMode = true)
  fecOrRedundant : ¬(cfg.fecEnabled = true ∧ cfg.redundantMode = true)
  fecGroupSize : cfg.fecEnabled = true → 2 ≤ cfg.fecGroupSize ∧ cfg.fecGroupSize ≤ 255
  fecParity : cfg.fecEnabled = true → 1 ≤ cfg.fecParity ∧ cfg.fecParity ≤ 2
  reorderWindow : cfg.reorderWindowMinMs ≤ cfg.reorderWindowMaxMs
  ewmaAlpha : ¬cfg.ewmaAlphaMax < cfg.ewmaAlphaMin
  probeInterval : 30 ≤ cfg.activeBandwidthProbeIntervalSecs
  probeDuration : 1 ≤ cfg.activeBandwidthProbeDurationSecs ∧
    cfg.activeBandwidthProbeDurationSecs ≤ 30

/-- A key file that only its owner can touch. -/
def Private (metadata : String → Except IoError UInt32) (path : String) : Prop :=
  ∃ mode, metadata path = .ok mode ∧ mode &&& 0o777 &&& 0o077 = 0

structure WellFormed (metadata : String → Except IoError UInt32) (cfg : Config F) : Prop where
  links : cfg.links ≠ []
  names : (cfg.links.map (·.name)).Nodup
  link : ∀ link ∈ cfg.links, LinkWellFormed cfg link
  keys : ∀ link ∈ cfg.links, Private metadata link.privateKeyFile
  tunnel : TunnelWellFormed cfg.tunnel
  scheduler : SchedulerWellFormed cfg.scheduler

theorem bind_eq_ok {x : Except MlvpnError Unit} {k : Unit → Except MlvpnError Unit} :
    (x >>= k) = .ok () ↔ x = .ok () ∧ k () = .ok () := by
  cases x with
  | error e => exact ⟨fun h => (nomatch h), fun h => (nomatch h.1)⟩
  | ok u => exact ⟨fun h => ⟨rfl, h⟩, fun h => h.2⟩

theorem reject_eq_ok {bad : Bool} {e : MlvpnError} : reject bad e = .ok () ↔ bad = false := by
  cases bad with
  | false => simp [reject]
  | true => simp [reject]

variable {metadata : String → Except IoError UInt32} {cfg : Config F} {seenNames : List String}
  {links : List (LinkConfig F)}

theorem checkPermissions_eq_ok {path : String} :
    checkPermissions metadata path = .ok () ↔ Private metadata path := by
  unfold checkPermissions Private
  cases metadata path with
  | error e => simp
  | ok mode => simp

theorem validateLink_eq_ok {link : LinkConfig F} :
    validateLink cfg seenNames link = .ok () ↔
      link.name ∉ seenNames ∧ LinkWellFormed cfg link := by
  simp only [validateLink, bind_eq_ok, reject_eq_ok, decide_eq_false_iff_not]
  constructor
  · rintro ⟨hname, hremote, hdual, hlocal, hweight, hprobe⟩
    refine ⟨hname, ?_, ?_, hweight, UInt64.not_lt.mp hprobe⟩
    · intro hclient hnone
      simp [hclient, hnone] at hremote
    · intro h
      simp only [h, Bool.true_and, Bool.or_eq_false_iff, decide_eq_false_iff_not, ne_eq,
        not_not, Option.isSome_eq_false_iff, Option.isNone_iff_eq_none] at hdual hlocal
      refine ⟨hdual.1, hdual.2, fun a ha => ?_⟩
      simpa [ha] using hlocal
  · rintro ⟨hname, hlink⟩
    refine ⟨hname, ?_, ?_, ?_, hlink.weight, UInt64.not_lt.mpr hlink.probeInterval⟩
    · cases h : decide (cfg.mode = .client) with
      | false => rfl
      | true =>
        simpa [Option.isSome_iff_ne_none] using hlink.remote (of_decide_eq_true h)
    · cases h : link.dualStack with
      | false => rfl
      | true => simp [(hlink.dualStack h).1, (hlink.dualStack h).2.1]
    · cases h : link.dualStack with
      | false => rfl
      | true =>
        cases ha : link.localAddr with
        | none => rfl
        | some a => simp [(hlink.dualStack h).2.2 a ha]

theorem validateLinks_eq_ok :
    validateLinks cfg seenNames links = .ok () ↔
      (links.map (·.name)).Nodup ∧ (∀ link ∈ links, link.name ∉ seenNames) ∧
        ∀ link ∈ links, LinkWellFormed cfg link := by
  induction links generalizing seenNames with
  | nil => simp [validateLinks]
  | cons link links ih =>
    simp only [validateLinks, bind_eq_ok, validateLink_eq_ok, ih, List.map_cons,
      List.nodup_cons, List.forall_mem_cons]
    simp only [List.mem_cons, not_or, List.mem_map, not_exists, not_and]
    constructor
    · rintro ⟨⟨hname, hlink⟩, hnodup, hseen, hlinks⟩
      exact ⟨⟨fun l hl => (hseen l hl).1, hnodup⟩, ⟨hname, fun l hl => (hseen l hl).2⟩,
        hlink, hlinks⟩
    · rintro ⟨⟨hfresh, hnodup⟩, ⟨hname, hseen⟩, hlink, hlinks⟩
      exact ⟨⟨hname, hlink⟩, hnodup, fun l hl => ⟨hfresh l hl, hseen l hl⟩, hlinks⟩

omit [Floating F] in
theorem validateKeys_eq_ok :
    validateKeys metadata links = .ok () ↔
      ∀ link ∈ links, Private metadata link.privateKeyFile := by
  induction links with
  | nil => simp [validateKeys]
  | cons link links ih =>
    rw [validateKeys, bind_eq_ok, checkPermissions_eq_ok, ih, List.forall_mem_cons]

theorem validateTunnel_eq_ok {cfg : TunnelConfig} :
    validateTunnel cfg = .ok () ↔ TunnelWellFormed cfg := by
  simp only [validateTunnel, bind_eq_ok, reject_eq_ok, decide_eq_false_iff_not, not_not]
  constructor
  · rintro ⟨hmtu, hlen⟩
    refine ⟨fun mtu h => ?_, hlen⟩
    simpa [h] using hmtu
  · rintro ⟨hmtu, hlen⟩
    refine ⟨?_, hlen⟩
    cases h : cfg.mtu with
    | none => rfl
    | some mtu => simpa using hmtu mtu h

theorem validateScheduler_eq_ok {cfg : SchedulerConfig F} :
    validateScheduler cfg = .ok () ↔ SchedulerWellFormed cfg := by
  simp only [validateScheduler, bind_eq_ok, reject_eq_ok, decide_eq_false_iff_not,
    Bool.and_eq_false_imp, not_not, UInt64.not_lt]
  constructor
  · rintro ⟨h1, h2, h3, h4, h5, h6, h7, h8, h9, h10⟩
    exact ⟨by simpa using h1, by simpa using h2, by simpa using h3, by simpa using h4,
      h5, h6, h7, h8, h9, h10⟩
  · rintro ⟨h1, h2, h3, h4, h5, h6, h7, h8, h9, h10⟩
    exact ⟨by simpa using h1, by simpa using h2, by simpa using h3, by simpa using h4,
      h5, h6, h7, h8, h9, h10⟩

/-- The validator accepts exactly the well-formed configurations. -/
theorem validate_eq_ok_iff : validate metadata cfg = .ok () ↔ WellFormed metadata cfg := by
  simp only [validate, bind_eq_ok, reject_eq_ok, validateLinks_eq_ok, validateKeys_eq_ok,
    validateTunnel_eq_ok, validateScheduler_eq_ok, List.isEmpty_eq_false_iff]
  constructor
  · rintro ⟨hne, ⟨hnames, -, hlinks⟩, hkeys, htunnel, hscheduler⟩
    exact ⟨hne, hnames, hlinks, hkeys, htunnel, hscheduler⟩
  · rintro ⟨hne, hnames, hlinks, hkeys, htunnel, hscheduler⟩
    exact ⟨hne, ⟨hnames, by simp, hlinks⟩, hkeys, htunnel, hscheduler⟩

/-! ## An accepted server -/

/-- The owner of every key file is the only one to read it. -/
def ownerOnly : String → Except IoError UInt32 := fun _ => .ok 0o600

/-- A server with one link, FEC on with groups of eight, and the given tunnel. -/
def serverWith (tunnel : TunnelMtu.TunnelConfig) : Config ℚ where
  mode := .server
  tunnel := { tunnel with txQueueLen := 1000 }
  scheduler :=
    { downThreshold := 3, upThreshold := 2, redundantMode := false, fecEnabled := true
      fecGroupSize := 8, fecParity := 2, primaryLinkMode := false, followPeerPrimary := false
      reorderWindowMinMs := 5, reorderWindowMaxMs := 200, probeIntervalMaxMs := 5000
      ewmaAlphaMin := 1 / 20, ewmaAlphaMax := 1 / 2
      activeBandwidthProbeIntervalSecs := 60, activeBandwidthProbeDurationSecs := 1 }
  links :=
    [{ name := "wan", localAddr := none, dualStack := false, remoteAddr := none, weight := 1
       bandwidthCapMbps := none, probeIntervalMs := 500, privateKeyFile := "wan.key" }]

end Mlvpn.Ports.ConfigFile
