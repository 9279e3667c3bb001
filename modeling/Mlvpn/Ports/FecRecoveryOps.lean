import Mlvpn.Ports.FecRecovery
import Mlvpn.Verified.AssocMap

/-!
# What each operation of the recovery buffer touches

The buffer has two halves.  The *tracking* half (plaintexts, generations,
floors, highest sequence number) is read by `memberState` and `reconstruct`;
the *parking* half (parked groups, their index, late recoveries) holds what is
still to be evaluated.  Every helper of the source writes one half only, which
this file records, together with one equation per call that says the call is a
note, at most one evaluation, and the bookkeeping its answer asks for.

## Main results

* `accept_parking`, `deliverAll_parking`, `unpark_tracking`, `park_tracking`, … —
  the halves an operation leaves alone.
* `observeData_seen`, `observeData_fresh`, `recheckParkedFor_eq`, `tryRecover_eq`
  — the calls, stated without intermediate bindings.
* `lookup_insertPayload`, `tick_parked_shrinks`, … — how the maps change.
-/

namespace Mlvpn.Ports.FecRecoveryOps

open Protocol FecSend FecRecovery FecRecoveryBuffer Verified.AssocMap

/-! ## The two halves -/

/-- What classification and reconstruction read. -/
@[ext] structure Tracking where
  payloads : Payloads
  payloadOrder : List UInt64
  seenCurrent : Finset UInt64
  seenPrevious : Finset UInt64
  seenFloor : Option UInt64
  seenRotationHigh : Option UInt64
  highestSeq : UInt64
  parityCount : UInt8

/-- What waits for a second share or a late member, and what it unlocked. -/
@[ext] structure Parking where
  parked : ParkedMap
  parkedBySeq : AList fun _ : UInt64 => UInt64
  lateRecoveries : List Member

def tracking (b : FecRecoveryBuffer) : Tracking where
  payloads := b.payloads
  payloadOrder := b.payloadOrder
  seenCurrent := b.seenCurrent
  seenPrevious := b.seenPrevious
  seenFloor := b.seenFloor
  seenRotationHigh := b.seenRotationHigh
  highestSeq := b.highestSeq
  parityCount := b.parityCount

def parking (b : FecRecoveryBuffer) : Parking where
  parked := b.parked
  parkedBySeq := b.parkedBySeq
  lateRecoveries := b.lateRecoveries

/-! ## Operations on the tracking half -/

variable {b : FecRecoveryBuffer} {env : CallEnv} {now : Instant} {tie : Nat} {seq s key : UInt64}
  {plaintext : Bytes} {shares : ShareSet} {parity : FecParityPayload} {kind : ParityKind}

variable (b now seq)

@[simp] theorem noteSeq_parking : parking (b.noteSeq seq) = parking b := by
  unfold noteSeq
  split
  · rfl
  · split <;> rfl

@[simp] theorem noteSeq_parityCount : (b.noteSeq seq).parityCount = b.parityCount := by
  unfold noteSeq
  split
  · rfl
  · split <;> rfl

/-- A note keeps the plaintexts or, on a restart, clears them. -/
theorem noteSeq_payloads_shrinks : Shrinks b.payloads (b.noteSeq seq).payloads := by
  unfold noteSeq
  split
  · exact Shrinks.refl _
  · split
    · exact shrinks_empty _
    · exact Shrinks.refl _

/-- A mark adds to the current generation and, past the cap, rotates at once. -/
theorem markSeen_cases :
    b.markSeen now seq = { b with seenCurrent := insert seq b.seenCurrent } ∨
    b.markSeen now seq = { b with seenCurrent := insert seq b.seenCurrent }.rotateSeen now := by
  unfold markSeen
  by_cases hfull : (insert seq b.seenCurrent).card > MAX_SEEN_PER_GENERATION
  · right
    simp only [hfull, if_true]
  · left
    simp only [hfull, if_false]

@[simp] theorem markSeen_parking : parking (b.markSeen now seq) = parking b := by
  rcases markSeen_cases b now seq with h | h
  · rw [h]
    rfl
  · rw [h]
    rfl

@[simp] theorem markSeen_payloads : (b.markSeen now seq).payloads = b.payloads := by
  rcases markSeen_cases b now seq with h | h
  · rw [h]
  · rw [h]
    rfl

@[simp] theorem markSeen_parityCount : (b.markSeen now seq).parityCount = b.parityCount := by
  rcases markSeen_cases b now seq with h | h
  · rw [h]
  · rw [h]
    rfl

variable {b now seq}

theorem evictOver_shrinks (limit : Nat) (order : List UInt64) (m : Payloads) :
    Shrinks m (evictOver limit order m).2 := by
  induction order generalizing m with
  | nil => exact Shrinks.refl m
  | cons seq order ih =>
    unfold evictOver
    split
    · exact (shrinks_erase m seq).trans (ih _)
    · exact Shrinks.refl m

/-- After an insertion every retained plaintext is the new one or an old one. -/
theorem lookup_insertPayload {v : Instant × Bytes}
    (h : (b.insertPayload now seq plaintext).payloads.lookup s = some v) :
    (s = seq ∧ v = (now, plaintext)) ∨ b.payloads.lookup s = some v :=
  lookup_insert_cases (evictOver_shrinks _ _ _ s v h)

@[simp] theorem accept_parking (b : FecRecoveryBuffer) (t t' : Instant) (seq : UInt64)
    (plaintext : Bytes) : parking (b.accept t t' seq plaintext) = parking b :=
  markSeen_parking b t seq

@[simp] theorem accept_parityCount (b : FecRecoveryBuffer) (t t' : Instant) (seq : UInt64)
    (plaintext : Bytes) : (b.accept t t' seq plaintext).parityCount = b.parityCount :=
  markSeen_parityCount b t seq

theorem lookup_accept {t t' : Instant} {v : Instant × Bytes}
    (h : (b.accept t t' seq plaintext).payloads.lookup s = some v) :
    (s = seq ∧ v = (t', plaintext)) ∨ b.payloads.lookup s = some v := by
  simpa using lookup_insertPayload h

variable {frames : List Member}

/-- What every `accept` preserves, a whole delivery preserves. -/
theorem deliverAll_induction {P : FecRecoveryBuffer → Prop} (env : CallEnv)
    (i : Nat) (h : P b) (hstep : ∀ b t t', ∀ m ∈ frames, P b → P (b.accept t t' m.1 m.2)) :
    P (deliverAll env i b frames) := by
  induction frames generalizing i b with
  | nil => exact h
  | cons m frames ih =>
    obtain ⟨seq, data⟩ := m
    exact ih (i + 1) (hstep b _ _ (seq, data) (by simp) h)
      fun b t t' m hm => hstep b t t' m (List.mem_cons_of_mem _ hm)

@[simp] theorem deliverAll_parking (env : CallEnv) (i : Nat) (b : FecRecoveryBuffer)
    (frames : List Member) : parking (deliverAll env i b frames) = parking b :=
  deliverAll_induction (P := fun b' => parking b' = parking b) env i rfl
    fun b' t t' m _ h => by rw [accept_parking, h]

theorem expirePayloads_shrinks (ttl now : Nat) (order : List UInt64) (m : Payloads) :
    Shrinks m (expirePayloads ttl now order m).2 := by
  induction order generalizing m with
  | nil => exact Shrinks.refl m
  | cons seq order ih =>
    have hpop := (shrinks_erase m seq).trans (ih (m.erase seq))
    rw [expirePayloads]
    cases m.lookup seq with
    | none => exact hpop
    | some entry =>
      simp only
      split
      · exact hpop
      · exact Shrinks.refl m

/-! ## Operations on the parking half -/

variable (b now tie key)

@[simp] theorem unpark_tracking : tracking (b.unpark key).1 = tracking b := by
  unfold unpark
  cases b.parked.lookup key <;> rfl

@[simp] theorem unpark_snd : (b.unpark key).2 = b.parked.lookup key := by
  unfold unpark
  cases b.parked.lookup key <;> rfl

@[simp] theorem unpark_lateRecoveries : (b.unpark key).1.lateRecoveries = b.lateRecoveries := by
  unfold unpark
  cases b.parked.lookup key <;> rfl

theorem unpark_lookup (k : UInt64) :
    (b.unpark key).1.parked.lookup k = if k = key then none else b.parked.lookup k := by
  unfold unpark
  by_cases hk : k = key
  · subst hk
    cases hg : b.parked.lookup k <;> simp [hg]
  · cases hg : b.parked.lookup key <;> simp [hk, AList.lookup_erase_ne hk]

theorem unpark_parked_shrinks : Shrinks b.parked (b.unpark key).1.parked := by
  intro k v hk
  rw [unpark_lookup] at hk
  split at hk
  · simp at hk
  · exact hk

/-- The index after a group left: its missing members are gone from it. -/
theorem unpark_parkedBySeq (seq : UInt64) :
    (b.unpark key).1.parkedBySeq.lookup seq =
      if ∃ g, b.parked.lookup key = some g ∧ seq ∈ g.missing then none
      else b.parkedBySeq.lookup seq := by
  unfold unpark
  cases hg : b.parked.lookup key with
  | none => simp
  | some g =>
    refine (lookup_eraseAll _ _ _).trans ?_
    simp

@[simp] theorem dropParked_tracking : tracking (b.dropParked key) = tracking b :=
  unpark_tracking b key

/-- The buffer `park` inserts into: one group evicted when the table is full. -/
def makeRoom (b : FecRecoveryBuffer) (tie : Nat) : FecRecoveryBuffer :=
  if b.parked.entries.length ≥ MAX_PARKED_GROUPS then
    match b.oldestParked tie with
    | some oldest => { b.dropParked oldest with givenUp := b.givenUp + 1 }
    | none => b
  else b

theorem park_eq (shares : ShareSet) (missing : List UInt64) :
    b.park now tie key shares missing =
      { makeRoom b tie with
        parkedBySeq := insertAll (makeRoom b tie).parkedBySeq key missing
        parked := (makeRoom b tie).parked.insert key { parkedAt := now, shares, missing } } :=
  rfl

theorem makeRoom_cases :
    makeRoom b tie = b ∨ ∃ oldest,
      makeRoom b tie = { b.dropParked oldest with givenUp := b.givenUp + 1 } := by
  unfold makeRoom
  split
  · cases b.oldestParked tie with
    | none => exact Or.inl rfl
    | some oldest => exact Or.inr ⟨oldest, rfl⟩
  · exact Or.inl rfl

@[simp] theorem makeRoom_tracking : tracking (makeRoom b tie) = tracking b := by
  rcases makeRoom_cases b tie with h | ⟨oldest, h⟩
  · rw [h]
  · rw [h]
    exact dropParked_tracking b oldest

theorem makeRoom_lateRecoveries : (makeRoom b tie).lateRecoveries = b.lateRecoveries := by
  rcases makeRoom_cases b tie with h | ⟨oldest, h⟩
  · rw [h]
  · rw [h]
    exact unpark_lateRecoveries b oldest

theorem makeRoom_parked_shrinks : Shrinks b.parked (makeRoom b tie).parked := by
  rcases makeRoom_cases b tie with h | ⟨oldest, h⟩
  · rw [h]
    exact Shrinks.refl _
  · rw [h]
    exact unpark_parked_shrinks b oldest

@[simp] theorem park_tracking (shares : ShareSet) (missing : List UInt64) :
    tracking (b.park now tie key shares missing) = tracking b := by
  rw [park_eq]
  exact makeRoom_tracking b tie

@[simp] theorem park_lateRecoveries (shares : ShareSet) (missing : List UInt64) :
    (b.park now tie key shares missing).lateRecoveries = b.lateRecoveries := by
  rw [park_eq]
  exact makeRoom_lateRecoveries b tie

variable {b now tie key}

/-- A parked group after a `park` is the new one or an old one. -/
theorem lookup_park {k : UInt64} {missing : List UInt64}
    {g : ParkedGroup} (h : (b.park now tie key shares missing).parked.lookup k = some g) :
    (k = key ∧ g = { parkedAt := now, shares, missing }) ∨ b.parked.lookup k = some g := by
  rw [park_eq] at h
  rcases lookup_insert_cases h with hnew | hold
  · exact Or.inl hnew
  · exact Or.inr (makeRoom_parked_shrinks b tie k g hold)

/-! ## What an evaluation may name -/

/-- The positions solved for are the missing ones. -/
theorem solve_fst {missing : List Nat} {stripped : Option Bytes × Option Bytes}
    {out : List (Nat × Bytes)} (h : solve missing stripped = some out) :
    out.map Prod.fst = missing := by
  obtain ⟨pp, qp⟩ := stripped
  match missing, h with
  | [a], h =>
    cases pp <;> cases qp <;> simp only [solve, Option.some.injEq, reduceCtorEq] at h <;>
      rw [← h] <;> rfl
  | [a, c], h =>
    cases pp <;> cases qp <;> simp only [solve, Option.some.injEq, reduceCtorEq] at h
    rw [← h]
    rfl

/-- One of the shares names the number `s` as a member. -/
def Named (shares : ShareSet) (s : UInt64) : Prop :=
  ∃ p, (shares.p = some p ∨ shares.q = some p) ∧ s ∈ p.memberSeqs

theorem named_of_or {any : FecParityPayload} (hany : shares.p.or shares.q = some any)
    (hs : s ∈ any.memberSeqs) : Named shares s := by
  refine ⟨any, ?_, hs⟩
  rcases Option.or_eq_some_iff.1 hany with hp | ⟨-, hq⟩
  · exact Or.inl hp
  · exact Or.inr hq

/-- A merged share names what it brings and what was held. -/
theorem named_add {held : ShareSet} (h : Named (ShareSet.add held kind parity) s) :
    s ∈ parity.memberSeqs ∨ Named held s := by
  obtain ⟨p, hp, hs⟩ := h
  cases kind with
  | P =>
    rcases hp with hp | hq
    · obtain rfl : parity = p := Option.some.inj hp
      exact Or.inl hs
    · exact Or.inr ⟨p, Or.inr hq, hs⟩
  | Q =>
    rcases hp with hp | hq
    · exact Or.inr ⟨p, Or.inl hp, hs⟩
    · obtain rfl : parity = p := Option.some.inj hq
      exact Or.inl hs

theorem positions_getD {st : MemberState} {seqs : List UInt64} {i : Nat}
    (hi : i ∈ b.positions st seqs) : seqs.getD i 0 ∈ seqs ∧ b.memberState (seqs.getD i 0) = st := by
  obtain ⟨⟨seq, k⟩, hmem, rfl⟩ := List.mem_map.1 hi
  obtain ⟨hzip, hst⟩ := List.mem_filter.1 hmem
  have hget := List.mem_zipIdx_iff_getElem?.1 hzip
  have hseq : seqs.getD k 0 = seq := by
    rw [List.getD_eq_getElem?_getD, hget]
    rfl
  rw [hseq]
  exact ⟨List.mem_of_getElem? hget, by simpa using hst⟩

/-- Whatever the shares, what is recovered is what was missing of the members they name, and at
most two of it. -/
theorem recovered_positions (h : b.reconstruct shares = .Recovered frames) :
    ∃ any, shares.p.or shares.q = some any ∧ frames.map Prod.fst =
      (b.positions .Missing any.memberSeqs).map (any.memberSeqs.getD · 0) ∧ frames.length ≤ 2 := by
  unfold reconstruct at h
  cases hany : shares.p.or shares.q with
  | none => simp [hany] at h
  | some any =>
    simp only [hany] at h
    split at h
    · simp at h
    split at h
    · simp at h
    split at h
    · simp at h
    cases hwidth : shareWidth shares with
    | none => simp [hwidth] at h
    | some width =>
      simp only [hwidth] at h
      split at h
      · simp at h
      split at h
      · simp at h
      · rename_i hcount _ _ stripped hstrip
        split at h
        · simp at h
        · rename_i out hsolve
          have hfst := solve_fst hsolve
          cases h
          refine ⟨any, rfl, ?_, ?_⟩
          · rw [← hfst, List.map_map, List.map_map]
            rfl
          · have hle : b.maxErasures ≤ 2 := by
              unfold maxErasures
              split <;> omega
            have hlen := congrArg List.length hfst
            rw [List.length_map] at hlen ⊢
            omega

theorem recovered_named (h : b.reconstruct shares = .Recovered frames) :
    ∀ m ∈ frames, Named shares m.1 ∧ b.memberState m.1 = .Missing := by
  obtain ⟨any, hany, hfst, -⟩ := recovered_positions h
  intro m hm
  have hseq : m.1 ∈ frames.map Prod.fst := List.mem_map_of_mem hm
  rw [hfst] at hseq
  obtain ⟨i, hi, heq⟩ := List.mem_map.1 hseq
  obtain ⟨hmem, hst⟩ := positions_getD hi
  rw [heq] at hmem hst
  exact ⟨named_of_or hany hmem, hst⟩

/-- So is every number a group is parked for. -/
theorem needMore_named {missing : List UInt64} (h : b.reconstruct shares = .NeedMore missing) :
    ∀ s ∈ missing, Named shares s := by
  unfold reconstruct at h
  cases hany : shares.p.or shares.q with
  | none => simp [hany] at h
  | some any =>
    simp only [hany] at h
    split at h
    · simp at h
    split at h
    · simp at h
    split at h
    · cases h
      intro s hs
      obtain ⟨i, hi, rfl⟩ := List.mem_map.1 hs
      exact named_of_or hany (positions_getD hi).1
    · -- Past this point the answer is a recovery or a refusal.
      split at h
      · simp at h
      · split at h
        · simp at h
        · split at h
          · simp at h
          · split at h <;> simp at h

/-! ## The calls -/

/-- The plaintext of a fresh data frame is kept before anything is rechecked. -/
def stored (b : FecRecoveryBuffer) (env : CallEnv) (seq : UInt64) (plaintext : Bytes) :
    FecRecoveryBuffer :=
  (b.noteSeq seq).accept (env.clock 0) (env.clock 1) seq plaintext

/-- `seq` is in one of the two generations. -/
def Seen (b : FecRecoveryBuffer) (seq : UInt64) : Prop :=
  seq ∈ b.seenCurrent ∨ seq ∈ b.seenPrevious

instance (b : FecRecoveryBuffer) (seq : UInt64) : Decidable (Seen b seq) :=
  inferInstanceAs (Decidable (_ ∨ _))

theorem observeData_seen (h : Seen (b.noteSeq seq) seq) :
    b.observeData env seq plaintext = (b.noteSeq seq, false) :=
  if_pos h

theorem observeData_fresh (h : ¬Seen (b.noteSeq seq) seq) :
    b.observeData env seq plaintext =
      (if (stored b env seq plaintext).parked.entries = [] then stored b env seq plaintext
        else (stored b env seq plaintext).recheckParkedFor
          { env with clock := fun i => env.clock (i + 2) } seq, true) := by
  unfold observeData
  refine (if_neg h).trans ?_
  change (if (stored b env seq plaintext).parked.entries = [] then
    (stored b env seq plaintext, true) else
      ((stored b env seq plaintext).recheckParkedFor
        { env with clock := fun i => env.clock (i + 2) } seq, true)) = _
  split <;> rfl

/-- The buffer a recheck evaluates in: the group's entries are gone. -/
def released (b : FecRecoveryBuffer) (seq key : UInt64) : FecRecoveryBuffer :=
  ({ b with parkedBySeq := b.parkedBySeq.erase seq }.unpark key).1

@[simp] theorem released_tracking (b : FecRecoveryBuffer) (seq key : UInt64) :
    tracking (released b seq key) = tracking b :=
  unpark_tracking _ key

@[simp] theorem released_lateRecoveries (b : FecRecoveryBuffer) (seq key : UInt64) :
    (released b seq key).lateRecoveries = b.lateRecoveries :=
  unpark_lateRecoveries _ key

theorem released_parked_shrinks (b : FecRecoveryBuffer) (seq key : UInt64) :
    Shrinks b.parked (released b seq key).parked :=
  unpark_parked_shrinks { b with parkedBySeq := b.parkedBySeq.erase seq } key

theorem recheckParkedFor_none (h : b.parkedBySeq.lookup seq = none) :
    b.recheckParkedFor env seq = b := by
  simp only [recheckParkedFor, h]

theorem recheckParkedFor_absent (h : b.parkedBySeq.lookup seq = some key)
    (hg : b.parked.lookup key = none) :
    b.recheckParkedFor env seq = { b with parkedBySeq := b.parkedBySeq.erase seq } := by
  simp only [recheckParkedFor, h, unpark, hg]

/-- A recheck evaluates the parked shares and files the answer. -/
theorem recheckParkedFor_eq {g : ParkedGroup} (h : b.parkedBySeq.lookup seq = some key)
    (hg : b.parked.lookup key = some g) :
    b.recheckParkedFor env seq =
      match (released b seq key).reconstruct g.shares with
      | .Recovered frames =>
        { deliverAll env 0 (released b seq key) frames with
          lateRecoveries := (deliverAll env 0 (released b seq key) frames).lateRecoveries
            ++ frames }
      | .AlreadyComplete => released b seq key
      | .Unrecoverable => { released b seq key with givenUp := (released b seq key).givenUp + 1 }
      | .NeedMore missing => (released b seq key).park g.parkedAt env.tie key g.shares missing := by
  have hunpark : { b with parkedBySeq := b.parkedBySeq.erase seq }.unpark key =
      (released b seq key, some g) := by
    refine Prod.ext rfl ?_
    rw [unpark_snd]
    exact hg
  simp only [recheckParkedFor, h, hunpark, evaluate]
  cases (released b seq key).reconstruct g.shares <;> rfl

/-- The parity frames `try_recover` looks at. -/
def WellFormed (parity : FecParityPayload) : Prop :=
  parity.memberSeqs.length = parity.memberLens.length ∧ parity.memberSeqs ≠ []

/-- The highest sequence number a parity frame names. -/
def maxSeq (parity : FecParityPayload) : UInt64 := parity.memberSeqs.max?.getD 0

/-- The shares already held under a key. -/
def heldShares (b : FecRecoveryBuffer) (key : UInt64) : ShareSet :=
  match b.parked.lookup key with
  | some g => g.shares
  | none => { p := none, q := none }

/-- The shares a parity frame completes. -/
def merged (b : FecRecoveryBuffer) (kind : ParityKind) (parity : FecParityPayload) : ShareSet :=
  ShareSet.add (heldShares b (parity.memberSeqs.headD 0)) kind parity

/-- The buffer a parity frame is evaluated in: noted, its group unparked. -/
def taken (b : FecRecoveryBuffer) (parity : FecParityPayload) : FecRecoveryBuffer :=
  ((b.noteSeq (maxSeq parity)).unpark (parity.memberSeqs.headD 0)).1

theorem tryRecover_malformed (h : ¬WellFormed parity) :
    b.tryRecover env kind parity = (b, .Unrecoverable) := by
  unfold tryRecover
  rw [if_pos]
  unfold WellFormed at h
  tauto

theorem max?_eq_maxSeq (h : parity.memberSeqs ≠ []) :
    parity.memberSeqs.max? = some (maxSeq parity) := by
  unfold maxSeq
  cases hm : parity.memberSeqs.max? with
  | none => exact absurd (List.max?_eq_none_iff.1 hm) h
  | some m => rfl

theorem unpark_taken (b : FecRecoveryBuffer) (parity : FecParityPayload) :
    (b.noteSeq (maxSeq parity)).unpark (parity.memberSeqs.headD 0) =
      (taken b parity, b.parked.lookup (parity.memberSeqs.headD 0)) := by
  have hparked : (b.noteSeq (maxSeq parity)).parked = b.parked :=
    congrArg Parking.parked (noteSeq_parking b _)
  refine Prod.ext rfl ?_
  rw [unpark_snd, hparked]

theorem tryRecover_eq (h : WellFormed parity) :
    b.tryRecover env kind parity =
      match (taken b parity).reconstruct (merged b kind parity) with
      | .Recovered frames => (deliverAll env 0 (taken b parity) frames, .Recovered frames)
      | .AlreadyComplete => (taken b parity, .AlreadyComplete)
      | .Unrecoverable => (taken b parity, .Unrecoverable)
      | .NeedMore missing =>
        ((taken b parity).park (env.clock 4) env.tie (parity.memberSeqs.headD 0)
          (merged b kind parity) missing, .Pending) := by
  obtain ⟨hlen, hne⟩ := h
  unfold tryRecover
  rw [if_neg (by tauto)]
  simp only [max?_eq_maxSeq hne, unpark_taken]
  unfold merged heldShares evaluate
  cases b.parked.lookup (parity.memberSeqs.headD 0) with
  | none =>
    simp only
    cases (taken b parity).reconstruct _ <;> rfl
  | some g =>
    simp only
    cases (taken b parity).reconstruct _ <;> rfl

/-! ## Periodic maintenance -/

/-- The plaintext expiry of a tick. -/
def expire (b : FecRecoveryBuffer) (now : Instant) : FecRecoveryBuffer :=
  { b with
    payloadOrder := (expirePayloads b.payloadTtl now b.payloadOrder b.payloads).1
    payloads := (expirePayloads b.payloadTtl now b.payloadOrder b.payloads).2 }

/-- The parked groups a tick gives up on. -/
def expiredKeys (b : FecRecoveryBuffer) (now : Instant) : List UInt64 :=
  (b.parked.entries.filter fun g => now - g.2.parkedAt ≥ b.payloadTtl).map Sigma.fst

/-- Drop each group of the list, counting it. -/
def dropAll (b : FecRecoveryBuffer) (keys : List UInt64) : FecRecoveryBuffer :=
  keys.foldl (fun b key => { b.dropParked key with givenUp := b.givenUp + 1 }) b

variable (b now)

theorem tick_eq :
    (b.tick now).1 =
      { (if now - (dropAll (expire b now) (expiredKeys b now)).seenRotatedAt ≥
            (dropAll (expire b now) (expiredKeys b now)).seenGeneration then
          (dropAll (expire b now) (expiredKeys b now)).rotateSeen now
        else dropAll (expire b now) (expiredKeys b now)) with givenUp := 0 } :=
  rfl

@[simp] theorem dropAll_tracking (keys : List UInt64) : tracking (dropAll b keys) = tracking b := by
  induction keys generalizing b with
  | nil => rfl
  | cons key keys ih => exact (ih _).trans (dropParked_tracking b key)

@[simp] theorem dropAll_lateRecoveries (keys : List UInt64) :
    (dropAll b keys).lateRecoveries = b.lateRecoveries := by
  induction keys generalizing b with
  | nil => rfl
  | cons key keys ih => exact (ih _).trans (unpark_lateRecoveries b key)

theorem dropAll_parked_shrinks (keys : List UInt64) : Shrinks b.parked (dropAll b keys).parked := by
  induction keys generalizing b with
  | nil => exact Shrinks.refl _
  | cons key keys ih => exact (unpark_parked_shrinks b key).trans (ih _)

/-- A tick expires plaintexts and then may rotate the generations. -/
theorem tick_tracking :
    tracking (b.tick now).1 = tracking (expire b now) ∨
    tracking (b.tick now).1 = tracking ((expire b now).rotateSeen now) := by
  have hdrop := dropAll_tracking (expire b now) (expiredKeys b now)
  rw [tick_eq]
  split
  · right
    obtain ⟨h1, h2, h3, h4, h5, h6, h7, h8⟩ := Tracking.mk.inj hdrop
    simp only [tracking, rotateSeen, h1, h2, h3, h6, h7, h8]
  · left
    exact hdrop

theorem tick_parking :
    parking (b.tick now).1 = parking (dropAll (expire b now) (expiredKeys b now)) := by
  rw [tick_eq]
  split <;> rfl

theorem tick_parked_shrinks : Shrinks b.parked (b.tick now).1.parked := by
  rw [show (b.tick now).1.parked = _ from congrArg Parking.parked (tick_parking b now)]
  exact dropAll_parked_shrinks (expire b now) _

theorem tick_lateRecoveries : (b.tick now).1.lateRecoveries = b.lateRecoveries := by
  rw [show (b.tick now).1.lateRecoveries = _ from
    congrArg Parking.lateRecoveries (tick_parking b now)]
  exact dropAll_lateRecoveries (expire b now) _

theorem tick_payloads_shrinks : Shrinks b.payloads (b.tick now).1.payloads := by
  have hexpire : Shrinks b.payloads (expire b now).payloads := expirePayloads_shrinks _ _ _ _
  rcases tick_tracking b now with h | h
  · rw [show (b.tick now).1.payloads = _ from congrArg Tracking.payloads h]
    exact hexpire
  · rw [show (b.tick now).1.payloads = _ from congrArg Tracking.payloads h]
    exact hexpire

end Mlvpn.Ports.FecRecoveryOps
