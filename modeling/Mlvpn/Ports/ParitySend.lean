import Mlvpn.Ports.ConfigFile
import Mlvpn.Ports.FecSend
import Mlvpn.Verified.Extremum

/-!
# Queueing a group's parity

Port of `tunnel::send_fec_parity` with `fec::choose_parity_link` and the two
sizes it goes by, `parity_frame_overhead_bytes` and `mtu_reservation_bytes`.  A
share that would not fit the live MTU and the headroom is dropped with its group;
one length check, of `P`, decides for both shares.

## Main results

* `length_encode_of_covers`: both shares of a group take the same number of bytes, the
  longest member and a header that depends on the number of members only.
* `sendFecParity_queued_length`: whatever is queued is within the budget.
* `parity_never_dropped`: in an accepted configuration, frames within the live MTU never cost
  a group its parity.
* `chooseParityLink_dominant`, `chooseParityLink_diverse`: the link picked is the one usable link
  that carried the most members, or the fewest.
-/

namespace Mlvpn.Ports.ParitySend

open ConfigFile FecSend Protocol Verified.BigEndian Verified.Extremum

/-! ## Sizes -/

def parityFrameOverheadBytes (groupSize : UInt8) : UInt16 := 1 + groupSize.toUInt16 * 10 + 2

def mtuReservationBytes {F : Type*} (cfg : SchedulerConfig F) : UInt16 :=
  if cfg.fecEnabled then parityFrameOverheadBytes cfg.fecGroupSize else 0

/-- `parity_headroom` of `outbound_sender`. -/
def parityHeadroom {F : Type*} (cfg : SchedulerConfig F) : Nat :=
  if cfg.fecEnabled then (parityFrameOverheadBytes cfg.fecGroupSize).toNat else 0

theorem parityHeadroom_eq {F : Type*} (cfg : SchedulerConfig F) :
    parityHeadroom cfg = (mtuReservationBytes cfg).toNat := by
  unfold parityHeadroom mtuReservationBytes
  split
  · rfl
  · rfl

/-! ## Placement -/

inductive FecParityPlacement where
  | Scheduler
  | Dominant
  | Diverse
deriving Repr, DecidableEq

/-- The one usable link whose count is `best`; a tie is no choice. -/
def soleHit (candidates : List Nat) (counts : Nat → Nat) (best : Nat) : Option Nat :=
  match candidates.filter fun i => counts i = best with
  | [first] => some first
  | _ => none

/-- The links that may be picked. -/
def candidates (usable : List Bool) : List Nat :=
  (List.range usable.length).filter fun i => usable.getD i false

def chooseParityLink (placement : FecParityPlacement) (memberLinks : List Nat)
    (usable : List Bool) : Option Nat :=
  let counts i := memberLinks.count i
  match placement with
  | .Scheduler => none
  | .Dominant => do
      let best ← ((candidates usable).map counts).max?
      if best = 0 then none else soleHit (candidates usable) counts best
  | .Diverse => do
      let best ← ((candidates usable).map counts).min?
      soleHit (candidates usable) counts best

section

variable {memberLinks : List Nat} {usable : List Bool} {i : Nat}

theorem mem_candidates : i ∈ candidates usable ↔ usable.getD i false = true := by
  rw [candidates, List.mem_filter, List.mem_range]
  refine ⟨fun h => h.2, fun h => ⟨?_, h⟩⟩
  by_contra hout
  rw [List.getD_eq_default _ _ (Nat.le_of_not_lt hout)] at h
  cases h

theorem nodup_candidates (usable : List Bool) : (candidates usable).Nodup :=
  List.nodup_range.filter _

theorem soleHit_eq_some {links : List Nat} {counts : Nat → Nat} {best : Nat} :
    soleHit links counts best = some i ↔ links.filter (fun j => counts j = best) = [i] := by
  unfold soleHit
  split
  case h_1 first hhits => rw [hhits, Option.some_inj, List.cons.injEq, and_iff_left rfl]
  case h_2 hhits => exact ⟨(fun h => nomatch h), fun h => absurd h (hhits i)⟩

theorem chooseParityLink_dominant :
    chooseParityLink .Dominant memberLinks usable = some i ↔
      usable.getD i false = true ∧ 0 < memberLinks.count i ∧
        ∀ j, usable.getD j false = true → j ≠ i → memberLinks.count j < memberLinks.count i := by
  show (((candidates usable).map (memberLinks.count ·)).max?.bind fun best =>
    if best = 0 then none else soleHit (candidates usable) (memberLinks.count ·) best) = _ ↔ _
  simp only [Option.bind_eq_some_iff, List.max?_eq_some_iff, Option.ite_none_left_eq_some,
    soleHit_eq_some, and_left_comm, sole_extreme_iff (nodup_candidates usable) le_refl,
    exists_eq_left, mem_candidates, ← lt_iff_le_and_ne, ← Nat.pos_iff_ne_zero]

theorem chooseParityLink_diverse :
    chooseParityLink .Diverse memberLinks usable = some i ↔
      usable.getD i false = true ∧
        ∀ j, usable.getD j false = true → j ≠ i → memberLinks.count i < memberLinks.count j := by
  show (((candidates usable).map (memberLinks.count ·)).min?.bind fun best =>
    soleHit (candidates usable) (memberLinks.count ·) best) = _ ↔ _
  simp only [Option.bind_eq_some_iff, List.min?_eq_some_iff, soleHit_eq_some,
    sole_extreme_iff (R := (· ≥ ·)) (nodup_candidates usable) le_refl, exists_eq_left,
    mem_candidates, ge_iff_le, ← lt_iff_le_and_ne, ne_comm (b := memberLinks.count i)]

end

/-! ## Sending -/

structure FecSendStats where
  groups : UInt64
  parityP : UInt64
  parityQ : UInt64
deriving Repr, DecidableEq

/-- A parity frame handed to `dispatch`, which numbers it and finds it a queue. -/
structure ParityFrame where
  ptype : PacketType
  plaintext : Bytes
  forced : Option Nat
deriving Repr, DecidableEq

/-- What `send_fec_parity` leaves behind. -/
structure ParitySent where
  fecUnrecoverableTotal : UInt64
  stats : FecSendStats
  queued : List ParityFrame
deriving Repr, DecidableEq

/-- `usable` is what the links' locks showed, `mtu` the live tunnel MTU. -/
def sendFecParity (group : FecGroup) (placement : FecParityPlacement) (parityHeadroom : Nat)
    (mtu : UInt16) (usable : List Bool) (fecUnrecoverableTotal : UInt64) (stats : FecSendStats) :
    ParitySent :=
  let parityBytes := group.p.encode
  let budget := mtu.toNat + parityHeadroom
  if parityBytes.length > budget then
    { fecUnrecoverableTotal := fecUnrecoverableTotal + 1, stats, queued := [] }
  else
    let forced := if placement = .Scheduler then none
      else chooseParityLink placement group.memberLinks usable
    let stats := { stats with groups := stats.groups + 1, parityP := stats.parityP + 1 }
    { fecUnrecoverableTotal
      stats := if group.q.isSome then { stats with parityQ := stats.parityQ + 1 } else stats
      queued := { ptype := .FecParity, plaintext := parityBytes, forced } ::
        match group.q with
        | some q => [{ ptype := .FecParityQ, plaintext := q.encode, forced }]
        | none => [] }

variable {s : FecSender} {ms : List Member} {g : FecGroup}

/-- A share's size depends on its group alone, so `Q` is exactly as wide as `P`. -/
theorem length_encode_of_covers {k : ParityKind} {p : FecParityPayload} (h : Covers k ms p) :
    p.encode.length = 1 + ms.length * 10 + 2 + width ms := by
  simp only [FecParityPayload.encode, List.length_cons, List.length_append, bigEndian_length,
    table_length seqBytes 8 seqBytes_length, table_length lenBytes 2 lenBytes_length, h.seqs,
    h.lens, h.sums.length, List.length_map]
  omega

section Sending

variable (h : Completes s ms g) (placement : FecParityPlacement) (headroom : Nat) (mtu : UInt16)
  (usable : List Bool) (total : UInt64) (stats : FecSendStats)
include h

theorem sendFecParity_queued_length {frame : ParityFrame}
    (hframe : frame ∈ (sendFecParity g placement headroom mtu usable total stats).queued) :
    frame.plaintext.length ≤ mtu.toNat + headroom := by
  have hp : g.p.encode.length = 1 + ms.length * 10 + 2 + width ms :=
    length_encode_of_covers h.p
  by_cases hbudget : g.p.encode.length > mtu.toNat + headroom
  · simp [sendFecParity, if_pos hbudget] at hframe
  · simp only [sendFecParity, if_neg hbudget, List.mem_cons] at hframe
    rcases hframe with rfl | hq
    · exact Nat.le_of_not_lt hbudget
    · cases hshare : g.q with
      | none => simp [hshare] at hq
      | some q =>
        -- The check was made for `P` alone, and `Q` is of the same length.
        have hqlen := length_encode_of_covers (h.q q hshare)
        simp only [hshare, List.mem_singleton] at hq
        subst hq
        show q.encode.length ≤ mtu.toNat + headroom
        omega

theorem sendFecParity_queues (hmembers : ∀ m ∈ ms, m.2.length ≤ mtu.toNat)
    (hheadroom : 1 + ms.length * 10 + 2 ≤ headroom) :
    (sendFecParity g placement headroom mtu usable total stats).fecUnrecoverableTotal = total ∧
      (sendFecParity g placement headroom mtu usable total stats).queued.map (·.plaintext) =
        g.p.encode :: (g.q.map FecParityPayload.encode).toList := by
  have hp : g.p.encode.length = 1 + ms.length * 10 + 2 + width ms :=
    length_encode_of_covers h.p
  have hwidth : width ms ≤ mtu.toNat := width_le hmembers
  have hbudget : ¬g.p.encode.length > mtu.toNat + headroom := by omega
  rw [sendFecParity, if_neg hbudget]
  cases g.q with
  | none => exact ⟨rfl, rfl⟩
  | some q => exact ⟨rfl, rfl⟩

end Sending

/-- **Parity is never too big.**  In an accepted configuration every group of frames within the
live MTU gets all its parity queued: the headroom is the header of the largest share. -/
theorem parity_never_dropped {F : Type*} [Verified.Floating F]
    {metadata : String → Except IoError UInt32} {cfg : Config F}
    (haccepted : validate metadata cfg = .ok ()) (hfec : cfg.scheduler.fecEnabled = true)
    {frames : List Frame} {mtu : UInt16} (hframes : ∀ f ∈ frames, f.plaintext.length ≤ mtu.toNat)
    (placement : FecParityPlacement) (usable : List Bool) (total : UInt64)
    (stats : FecSendStats) :
    ∀ g ∈ sendAll (.new cfg.scheduler.fecGroupSize cfg.scheduler.fecParity) frames,
      let sent := sendFecParity g placement (parityHeadroom cfg.scheduler) mtu usable total stats
      sent.fecUnrecoverableTotal = total ∧ sent.queued.map (·.plaintext) =
        g.p.encode :: (g.q.map FecParityPayload.encode).toList := by
  intro g hg
  obtain ⟨groups, hcut, hall⟩ := sendAll_completes (holds_new _ _) frames
  obtain ⟨ms, hms, hcompletes⟩ := (completes_partners hall).2 g hg
  refine sendFecParity_queues hcompletes _ _ _ _ _ _ (fun m hm => ?_) ?_
  · obtain ⟨f, hf, rfl⟩ := List.mem_map.mp (hcut.subset (List.mem_flatten_of_mem hms hm))
    exact hframes f hf
  · have hsize : 2 ≤ cfg.scheduler.fecGroupSize.toNat :=
      ((validate_eq_ok_iff.mp haccepted).scheduler.fecGroupSize hfec).1
    have hmax := cfg.scheduler.fecGroupSize.toNat_lt
    rw [hcompletes.size, parityHeadroom, if_pos hfec]
    simp only [FecSender.new, parityFrameOverheadBytes, UInt16.toNat_add, UInt16.toNat_mul,
      UInt8.toNat_toUInt16, UInt16.reduceToNat]
    omega

theorem parity_never_dropped_eight :
    let groups := sendAll (.new 8 2) (List.replicate 8 ⟨7, [1, 2, 3], 0⟩)
    groups.length = 1 ∧ ∀ g ∈ groups,
      (sendFecParity g .Diverse 83 3 [true] 0 ⟨0, 0, 0⟩).fecUnrecoverableTotal = 0 := by
  have haccepted : validate ownerOnly (serverWith { mtu := none, address6 := none }) = .ok () := by
    decide +kernel
  exact ⟨by decide +kernel, fun g hg =>
    (parity_never_dropped haccepted rfl (by decide) .Diverse [true] 0 ⟨0, 0, 0⟩ g hg).1⟩

end Mlvpn.Ports.ParitySend
