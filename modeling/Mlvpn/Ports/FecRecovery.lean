import Mlvpn.Ports.FecSend
import Mlvpn.Verified.Mealy

/-!
# The receiver-side recovery buffer

Port of `fec::FecRecoveryBuffer`, every field and every transition of it.  The
buffer keeps recently received plaintexts (`payloads`, bounded by age and
count), two generations of sequence numbers already accounted for (`seen*`,
with the floor below which they may have been forgotten), and the groups parked
for a second share or a late member.

Three conventions carry the port:

* `HashMap` is `AList` and `HashSet` is `Finset`; where the source walks a hash
  map in its unspecified order, the call's environment supplies the choice.
* `Instant` is a number of nanoseconds, and each `Instant::now()` of a call is
  its own reading of the environment's clock, in program order.
* Sequence arithmetic is `u64`; `seq + STALE_SEQ_WINDOW` wraps, as it does in
  the release profile.

`evaluate` is split where the source's is: everything up to the final loop only
reads the buffer (`reconstruct`), the final loop records what was recovered
(`deliverAll`).
-/

namespace Mlvpn.Ports.FecRecovery

open FecGf Protocol FecSend

/-! ## Data -/

/-- A monotonic clock reading, in nanoseconds. -/
abbrev Instant := Nat

inductive RecoveryOutcome where
  | Recovered (frames : List Member)
  | Unrecoverable
  | AlreadyComplete
  | Pending
deriving Repr, DecidableEq

def PAYLOAD_TTL : Nat := 2000000000
def MAX_PAYLOADS : Nat := 4096
def SEEN_GENERATION : Nat := 2000000000
def MAX_SEEN_PER_GENERATION : Nat := 131072
def STALE_SEQ_WINDOW : UInt64 := 65536
def SEQ_RESET_GAP : UInt64 := 16777216
def MAX_PARKED_GROUPS : Nat := 512

/-- The shares seen so far for one group. -/
structure ShareSet where
  p : Option FecParityPayload
  q : Option FecParityPayload
deriving Repr, DecidableEq

structure ParkedGroup where
  parkedAt : Instant
  shares : ShareSet
  missing : List UInt64
deriving Repr, DecidableEq

inductive Eval where
  | Recovered (frames : List Member)
  | AlreadyComplete
  | Unrecoverable
  | NeedMore (missing : List UInt64)
deriving Repr, DecidableEq

inductive MemberState where
  | Known
  | Handled
  | Missing
deriving Repr, DecidableEq

abbrev Payloads := AList fun _ : UInt64 => Instant × Bytes
abbrev ParkedMap := AList fun _ : UInt64 => ParkedGroup

structure FecRecoveryBuffer where
  payloadTtl : Nat
  seenGeneration : Nat
  payloads : Payloads
  payloadOrder : List UInt64
  seenCurrent : Finset UInt64
  seenPrevious : Finset UInt64
  seenRotatedAt : Instant
  seenFloor : Option UInt64
  seenRotationHigh : Option UInt64
  highestSeq : UInt64
  parityCount : UInt8
  parked : ParkedMap
  parkedBySeq : AList fun _ : UInt64 => UInt64
  lateRecoveries : List Member
  givenUp : Nat

/-- What a call reads from outside the buffer: its successive clock readings,
and how ties between equally old parked groups fall. -/
structure CallEnv where
  clock : Nat → Instant
  tie : Nat

namespace FecRecoveryBuffer

def withParams (parityCount : UInt8) (payloadTtl seenGeneration : Nat) (now : Instant) :
    FecRecoveryBuffer where
  payloadTtl := payloadTtl
  seenGeneration := seenGeneration
  payloads := ∅
  payloadOrder := []
  seenCurrent := ∅
  seenPrevious := ∅
  seenRotatedAt := now
  seenFloor := none
  seenRotationHigh := none
  highestSeq := 0
  parityCount := parityCount
  parked := ∅
  parkedBySeq := ∅
  lateRecoveries := []
  givenUp := 0

/-- `FecRecoveryBuffer::new`; its group-size argument only presizes the maps. -/
def new (parityCount : UInt8) (now : Instant) : FecRecoveryBuffer :=
  withParams parityCount PAYLOAD_TTL SEEN_GENERATION now

/-! ## Sequence tracking -/

def noteSeq (b : FecRecoveryBuffer) (seq : UInt64) : FecRecoveryBuffer :=
  if seq > b.highestSeq then
    { b with highestSeq := seq }
  else if b.highestSeq - seq ≥ SEQ_RESET_GAP then
    -- The peer restarted its counter; the parked groups are not cleared here.
    { b with payloads := ∅, payloadOrder := [], seenCurrent := ∅, seenPrevious := ∅,
             seenFloor := none, seenRotationHigh := none, highestSeq := seq }
  else b

def rotateSeen (b : FecRecoveryBuffer) (now : Instant) : FecRecoveryBuffer :=
  { b with seenPrevious := b.seenCurrent, seenCurrent := ∅, seenFloor := b.seenRotationHigh,
           seenRotationHigh := some b.highestSeq, seenRotatedAt := now }

def markSeen (b : FecRecoveryBuffer) (now : Instant) (seq : UInt64) : FecRecoveryBuffer :=
  let b := { b with seenCurrent := insert seq b.seenCurrent }
  if b.seenCurrent.card > MAX_SEEN_PER_GENERATION then b.rotateSeen now else b

def memberState (b : FecRecoveryBuffer) (seq : UInt64) : MemberState :=
  if seq ∈ b.payloads then .Known
  else if seq ∈ b.seenCurrent ∨ seq ∈ b.seenPrevious then .Handled
  else if ∃ floor ∈ b.seenFloor, seq ≤ floor then .Handled
  else if seq + STALE_SEQ_WINDOW ≤ b.highestSeq then .Handled
  else .Missing

/-! ## Retained plaintexts -/

/-- `while payload_order.len() > MAX_PAYLOADS`: pop the oldest and forget it. -/
def evictOver (limit : Nat) : List UInt64 → Payloads → List UInt64 × Payloads
  | [], m => ([], m)
  | seq :: order, m =>
      if (seq :: order).length > limit then evictOver limit order (m.erase seq)
      else (seq :: order, m)

def insertPayload (b : FecRecoveryBuffer) (now : Instant) (seq : UInt64) (plaintext : Bytes) :
    FecRecoveryBuffer :=
  let order := if seq ∈ b.payloads then b.payloadOrder else b.payloadOrder ++ [seq]
  let kept := evictOver MAX_PAYLOADS order (b.payloads.insert seq (now, plaintext))
  { b with payloadOrder := kept.1, payloads := kept.2 }

/-- `mark_seen` followed by `insert_payload`, the pair both delivery paths run. -/
def accept (b : FecRecoveryBuffer) (markedAt storedAt : Instant) (seq : UInt64)
    (plaintext : Bytes) : FecRecoveryBuffer :=
  (b.markSeen markedAt seq).insertPayload storedAt seq plaintext

/-! ## Evaluating a group -/

/-- The positions of `seqs` in the given state. -/
def positions (b : FecRecoveryBuffer) (st : MemberState) (seqs : List UInt64) : List Nat :=
  (seqs.zipIdx.filter fun m => b.memberState m.1 = st).map Prod.snd

/-- Remove every known member's contribution from the shares in hand; `none`
when a non-missing member's plaintext is absent or wider than the share. -/
def stripKnown (payloads : Payloads) (width : Nat) (missing : List Nat) :
    List (UInt64 × Nat) → Option Bytes × Option Bytes → Option (Option Bytes × Option Bytes)
  | [], shares => some shares
  | (seq, i) :: rest, (pp, qp) =>
      if i ∈ missing then stripKnown payloads width missing rest (pp, qp)
      else
        match payloads.lookup seq with
        | none => none
        | some (_, bytes) =>
            if bytes.length > width then none
            else
              stripKnown payloads width missing rest
                (pp.map (xorInto · bytes), qp.map (mulAcc · bytes (pow2 i)))

/-- The reconstructed symbols of the missing positions, untruncated. -/
def solve (missing : List Nat) (stripped : Option Bytes × Option Bytes) :
    Option (List (Nat × Bytes)) :=
  match missing with
  | [a] =>
      match stripped with
      | (some pp, _) => some [(a, pp)]
      | (none, some qp) => some [(a, scale qp (inv (pow2 a)))]
      | (none, none) => none
  | [a, b] =>
      match stripped with
      | (some pp, some qp) =>
          -- Db = (Q' + g^a P') / (g^a + g^b);  Da = P' + Db.
          let db := scale (mulAcc qp pp (pow2 a)) (inv (pow2 a ^^^ pow2 b))
          some [(a, xorInto pp db), (b, db)]
      | _ => none
  | _ => none

/-- Share width; `none` for a pair of shares that do not describe one group. -/
def shareWidth (shares : ShareSet) : Option Nat :=
  match shares.p, shares.q with
  | some p, some q =>
      if p.parity.length ≠ q.parity.length ∨ p.memberSeqs ≠ q.memberSeqs ∨
          p.memberLens ≠ q.memberLens then none
      else some p.parity.length
  | some p, none => some p.parity.length
  | none, some q => some q.parity.length
  | none, none => none

/-- The erasures the configured shares can cover. -/
def maxErasures (b : FecRecoveryBuffer) : Nat := if b.parityCount ≥ 2 then 2 else 1

/-- `evaluate` up to its final loop: classify the members and compute what the
shares in hand allow. -/
def reconstruct (b : FecRecoveryBuffer) (shares : ShareSet) : Eval :=
  match shares.p.or shares.q with
  | none => .Unrecoverable
  | some any =>
      let seqs := any.memberSeqs
      let lens := any.memberLens
      let missing := b.positions .Missing seqs
      let handled := b.positions .Handled seqs
      if missing = [] then .AlreadyComplete
      else
        if missing.length > b.maxErasures ∨ handled.length > 0 then .Unrecoverable
        else if missing.length = 2 ∧ ¬(shares.p.isSome ∧ shares.q.isSome) then
          .NeedMore (missing.map fun i => seqs.getD i 0)
        else
          match shareWidth shares with
          | none => .Unrecoverable
          | some width =>
              if ∃ i ∈ missing, (lens.getD i 0).toNat > width then .Unrecoverable
              else
                match stripKnown b.payloads width missing seqs.zipIdx
                    (shares.p.map (·.parity), shares.q.map (·.parity)) with
                | none => .Unrecoverable
                | some stripped =>
                    match solve missing stripped with
                    | none => .Unrecoverable
                    | some out =>
                        .Recovered (out.map fun d =>
                          (seqs.getD d.1 0, d.2.take (lens.getD d.1 0).toNat))

/-- The final loop of `evaluate`: every recovered frame is marked and its
plaintext kept.  Round `i` takes clock readings `2 * i` and `2 * i + 1`. -/
def deliverAll (env : CallEnv) : Nat → FecRecoveryBuffer → List Member → FecRecoveryBuffer
  | _, b, [] => b
  | i, b, (seq, data) :: rest =>
      deliverAll env (i + 1) (b.accept (env.clock (2 * i)) (env.clock (2 * i + 1)) seq data) rest

def evaluate (b : FecRecoveryBuffer) (env : CallEnv) (shares : ShareSet) :
    FecRecoveryBuffer × Eval :=
  match b.reconstruct shares with
  | .Recovered frames => (deliverAll env 0 b frames, .Recovered frames)
  | outcome => (b, outcome)

/-! ## Parked groups -/

/-- Remove a parked group and its index entries. -/
def unpark (b : FecRecoveryBuffer) (key : UInt64) : FecRecoveryBuffer × Option ParkedGroup :=
  match b.parked.lookup key with
  | none => (b, none)
  | some g =>
      ({ b with parked := b.parked.erase key
                parkedBySeq := g.missing.foldl (fun m seq => m.erase seq) b.parkedBySeq },
       some g)

def dropParked (b : FecRecoveryBuffer) (key : UInt64) : FecRecoveryBuffer := (b.unpark key).1

/-- `parked.iter().min_by_key(|(_, g)| g.at)`: one of the oldest groups, which one
among equals being up to the map's iteration order. -/
def oldestParked (b : FecRecoveryBuffer) (tie : Nat) : Option UInt64 :=
  let oldest := b.parked.entries.filter fun g =>
    b.parked.entries.all fun g' => g.2.parkedAt ≤ g'.2.parkedAt
  oldest[tie % oldest.length]?.map Sigma.fst

def park (b : FecRecoveryBuffer) (now : Instant) (tie : Nat) (key : UInt64) (shares : ShareSet)
    (missing : List UInt64) : FecRecoveryBuffer :=
  let b :=
    if b.parked.entries.length ≥ MAX_PARKED_GROUPS then
      match b.oldestParked tie with
      | some oldest => { b.dropParked oldest with givenUp := b.givenUp + 1 }
      | none => b
    else b
  { b with parkedBySeq := missing.foldl (fun m seq => m.insert seq key) b.parkedBySeq
           parked := b.parked.insert key { parkedAt := now, shares, missing } }

/-- A late data frame landed: re-evaluate the parked group waiting on it. -/
def recheckParkedFor (b : FecRecoveryBuffer) (env : CallEnv) (seq : UInt64) : FecRecoveryBuffer :=
  match b.parkedBySeq.lookup seq with
  | none => b
  | some key =>
      match { b with parkedBySeq := b.parkedBySeq.erase seq }.unpark key with
      | (b, none) => b
      | (b, some parked) =>
          match b.evaluate env parked.shares with
          | (b, .Recovered frames) => { b with lateRecoveries := b.lateRecoveries ++ frames }
          | (b, .AlreadyComplete) => b
          | (b, .Unrecoverable) => { b with givenUp := b.givenUp + 1 }
          | (b, .NeedMore missing) => b.park parked.parkedAt env.tie key parked.shares missing

/-! ## The calls -/

def observeData (b : FecRecoveryBuffer) (env : CallEnv) (seq : UInt64) (plaintext : Bytes) :
    FecRecoveryBuffer × Bool :=
  let b := b.noteSeq seq
  if seq ∈ b.seenCurrent ∨ seq ∈ b.seenPrevious then (b, false)
  else
    let b := b.accept (env.clock 0) (env.clock 1) seq plaintext
    if b.parked.entries = [] then (b, true)
    else
      (b.recheckParkedFor { env with clock := fun i => env.clock (i + 2) } seq, true)

def hasLateRecoveries (b : FecRecoveryBuffer) : Bool := !b.lateRecoveries.isEmpty

def takeLateRecoveries (b : FecRecoveryBuffer) : FecRecoveryBuffer × List Member :=
  ({ b with lateRecoveries := [] }, b.lateRecoveries)

/-- The shares known for a group once `parity` has joined `old`. -/
def ShareSet.add (old : ShareSet) (kind : ParityKind) (parity : FecParityPayload) : ShareSet :=
  match kind with
  | .P => { old with p := some parity }
  | .Q => { old with q := some parity }

def tryRecover (b : FecRecoveryBuffer) (env : CallEnv) (kind : ParityKind)
    (parity : FecParityPayload) : FecRecoveryBuffer × RecoveryOutcome :=
  if parity.memberSeqs.length ≠ parity.memberLens.length ∨ parity.memberSeqs = [] then
    (b, .Unrecoverable)
  else
    let b := match parity.memberSeqs.max? with
      | some max => b.noteSeq max
      | none => b
    let key := parity.memberSeqs.headD 0
    let (b, parked) := b.unpark key
    let old := match parked with
      | some parked => parked.shares
      | none => { p := none, q := none }
    let shares := ShareSet.add old kind parity
    match b.evaluate env shares with
    | (b, .Recovered frames) => (b, .Recovered frames)
    | (b, .AlreadyComplete) => (b, .AlreadyComplete)
    | (b, .Unrecoverable) => (b, .Unrecoverable)
    | (b, .NeedMore missing) => (b.park (env.clock 4) env.tie key shares missing, .Pending)

/-- The expiry loop of `tick`: pop from the front while the oldest is expired. -/
def expirePayloads (ttl now : Nat) : List UInt64 → Payloads → List UInt64 × Payloads
  | [], m => ([], m)
  | seq :: order, m =>
      let expired := match m.lookup seq with
        | some (storedAt, _) => decide (now - storedAt ≥ ttl)
        | none => true
      if expired then expirePayloads ttl now order (m.erase seq) else (seq :: order, m)

def tick (b : FecRecoveryBuffer) (now : Instant) : FecRecoveryBuffer × Nat :=
  let kept := expirePayloads b.payloadTtl now b.payloadOrder b.payloads
  let b := { b with payloadOrder := kept.1, payloads := kept.2 }
  let expired := (b.parked.entries.filter fun g => now - g.2.parkedAt ≥ b.payloadTtl).map Sigma.fst
  let b := expired.foldl
    (fun b key => { b.dropParked key with givenUp := b.givenUp + 1 }) b
  let b := if now - b.seenRotatedAt ≥ b.seenGeneration then b.rotateSeen now else b
  ({ b with givenUp := 0 }, b.givenUp)

end FecRecoveryBuffer

/-! ## Runs -/

/-- One call on the buffer. -/
inductive Call where
  | observeData (env : CallEnv) (seq : UInt64) (plaintext : Bytes)
  | tryRecover (env : CallEnv) (kind : ParityKind) (parity : FecParityPayload)
  | takeLateRecoveries
  | tick (now : Instant)

/-- What a call returned. -/
inductive Reply where
  | observed (deliver : Bool)
  | outcome (o : RecoveryOutcome)
  | late (frames : List Member)
  | gaveUp (n : Nat)
deriving Repr, DecidableEq

def step (b : FecRecoveryBuffer) : Call → FecRecoveryBuffer × Reply
  | .observeData env seq plaintext =>
      ((b.observeData env seq plaintext).1, .observed (b.observeData env seq plaintext).2)
  | .tryRecover env kind parity =>
      ((b.tryRecover env kind parity).1, .outcome (b.tryRecover env kind parity).2)
  | .takeLateRecoveries => (b.takeLateRecoveries.1, .late b.takeLateRecoveries.2)
  | .tick now => ((b.tick now).1, .gaveUp (b.tick now).2)

/-- The frames a call handed out as recovered. -/
def Reply.recovered : Reply → List Member
  | .outcome (.Recovered frames) => frames
  | .late frames => frames
  | _ => []

end Mlvpn.Ports.FecRecovery
