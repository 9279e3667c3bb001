import Mlvpn.Ports.FecRecoveryOps
import Mathlib.Data.List.MinMax

/-!
# The memory of the recovery buffer

Every bound the buffer relies on is enforced where something is inserted, so it holds
however rarely `tick` is called.  The two halves of the buffer are bounded separately: an
operation writes one of them, and the other keeps its bound with its contents.

The index of parked groups is correct in one direction only.  What it maps is a missing
member of a group that is parked under the key it gives; a missing member that two groups
share is mapped for one of them.

## Main results

* `evictOver_retained`, `expirePayloads_retained`: the eviction order lists the keys.
* `memory_bounded`: the bounds after every run of calls.
-/

namespace Mlvpn.Ports.FecRecoveryBounds

open Verified Protocol FecSend FecRecovery FecRecoveryBuffer FecRecoveryOps
open Verified.AssocMap

/-! ## The order lists the keys -/

/-- `order` lists the keys of `m`, each once. -/
structure Retained (order : List UInt64) (m : Payloads) : Prop where
  nodup : order.Nodup
  mem_iff : ∀ seq, seq ∈ order ↔ seq ∈ m

variable {order : List UInt64} {m : Payloads}

theorem Retained.length_eq (h : Retained order m) : order.length = m.entries.length := by
  have hperm : order.Perm m.keys :=
    (List.perm_ext_iff_of_nodup h.nodup m.keys_nodup).mpr h.mem_iff
  rw [hperm.length_eq, AList.keys, List.keys, List.length_map]

theorem Retained.insert (h : Retained order m) (seq : UInt64) (entry : Instant × Bytes) :
    Retained (if seq ∈ m then order else order ++ [seq]) (m.insert seq entry) := by
  split
  case isTrue hmem =>
    refine ⟨h.nodup, fun s => ?_⟩
    rw [AList.mem_insert, h.mem_iff]
    exact ⟨Or.inr, fun hs => hs.elim (fun heq => heq ▸ hmem) id⟩
  case isFalse hnot =>
    refine ⟨?_, fun s => ?_⟩
    · refine h.nodup.append (List.nodup_singleton seq) ?_
      rw [List.disjoint_singleton, h.mem_iff]
      exact hnot
    · rw [List.mem_append, List.mem_singleton, AList.mem_insert, h.mem_iff]
      exact or_comm

/-- The oldest entry leaves both. -/
theorem Retained.pop {seq : UInt64} (h : Retained (seq :: order) m) :
    Retained order (m.erase seq) := by
  obtain ⟨hnot, hnodup⟩ := List.nodup_cons.mp h.nodup
  refine ⟨hnodup, fun s => ?_⟩
  rw [AList.mem_erase, ← h.mem_iff, List.mem_cons]
  constructor
  · intro hs
    exact ⟨fun heq => hnot (heq ▸ hs), Or.inr hs⟩
  · rintro ⟨hne, heq | hs⟩
    · exact absurd heq hne
    · exact hs

theorem evictOver_retained (limit : Nat) (h : Retained order m) :
    Retained (evictOver limit order m).1 (evictOver limit order m).2 ∧
      (evictOver limit order m).1.length ≤ limit := by
  induction order generalizing m with
  | nil => exact ⟨h, Nat.zero_le _⟩
  | cons seq order ih =>
    rw [evictOver]
    split
    case isTrue => exact ih h.pop
    case isFalse hle => exact ⟨h, Nat.le_of_not_lt hle⟩

theorem expirePayloads_retained (ttl now : Nat) (h : Retained order m) :
    Retained (expirePayloads ttl now order m).1 (expirePayloads ttl now order m).2 ∧
      (expirePayloads ttl now order m).1.length ≤ order.length := by
  induction order generalizing m with
  | nil => exact ⟨h, le_refl _⟩
  | cons seq order ih =>
    have hpop := ih h.pop
    have hlen : (expirePayloads ttl now order (m.erase seq)).1.length ≤ (seq :: order).length :=
      hpop.2.trans (Nat.le_succ _)
    rw [expirePayloads]
    cases m.lookup seq with
    | none => exact ⟨hpop.1, hlen⟩
    | some entry =>
      simp only
      split
      · exact ⟨hpop.1, hlen⟩
      · exact ⟨h, le_refl _⟩

/-! ## The tracking half -/

/-- The bounds on plaintexts and generations. -/
structure TrackingBounded (t : Tracking) : Prop where
  retained : Retained t.payloadOrder t.payloads
  payloadOrder : t.payloadOrder.length ≤ MAX_PAYLOADS
  seenCurrent : t.seenCurrent.card ≤ MAX_SEEN_PER_GENERATION
  seenPrevious : t.seenPrevious.card ≤ MAX_SEEN_PER_GENERATION + 1

variable {b : FecRecoveryBuffer}

theorem retained_empty : Retained [] ∅ := ⟨List.nodup_nil, fun seq => by simp⟩

section

variable (h : TrackingBounded (tracking b))
include h

theorem TrackingBounded.noteSeq (seq : UInt64) : TrackingBounded (tracking (b.noteSeq seq)) := by
  unfold FecRecoveryBuffer.noteSeq
  split
  · exact ⟨h.retained, h.payloadOrder, h.seenCurrent, h.seenPrevious⟩
  · split
    · exact ⟨retained_empty, Nat.zero_le _, Nat.zero_le _, Nat.zero_le _⟩
    · exact h

theorem TrackingBounded.rotateSeen (now : Instant) :
    TrackingBounded (tracking (b.rotateSeen now)) :=
  ⟨h.retained, h.payloadOrder, Nat.zero_le _, h.seenCurrent.trans (Nat.le_succ _)⟩

/-- One more mark, and the generation that is full by it is rotated at once. -/
theorem TrackingBounded.markSeen (now : Instant)
    (seq : UInt64) : TrackingBounded (tracking (b.markSeen now seq)) := by
  have hinsert : (insert seq b.seenCurrent).card ≤ MAX_SEEN_PER_GENERATION + 1 :=
    (Finset.card_insert_le _ _).trans (Nat.succ_le_succ h.seenCurrent)
  unfold FecRecoveryBuffer.markSeen
  dsimp only
  split
  case isTrue => exact ⟨h.retained, h.payloadOrder, Nat.zero_le _, hinsert⟩
  case isFalse hle => exact ⟨h.retained, h.payloadOrder, Nat.le_of_not_lt hle, h.seenPrevious⟩

theorem TrackingBounded.insertPayload (now : Instant) (seq : UInt64) (plaintext : Bytes) :
    TrackingBounded (tracking (b.insertPayload now seq plaintext)) := by
  obtain ⟨hretained, hle⟩ :=
    evictOver_retained MAX_PAYLOADS (h.retained.insert seq (now, plaintext))
  exact ⟨hretained, hle, h.seenCurrent, h.seenPrevious⟩

theorem TrackingBounded.accept (t t' : Instant) (seq : UInt64) (plaintext : Bytes) :
    TrackingBounded (tracking (b.accept t t' seq plaintext)) :=
  (h.markSeen t seq).insertPayload t' seq plaintext

theorem TrackingBounded.deliverAll (env : CallEnv) (i : Nat)
    (frames : List Member) : TrackingBounded (tracking (deliverAll env i b frames)) :=
  deliverAll_induction (P := fun b => TrackingBounded (tracking b)) env i h
    fun _ t t' m _ hb => hb.accept t t' m.1 m.2

theorem TrackingBounded.tick (now : Instant) : TrackingBounded (tracking (b.tick now).1) := by
  obtain ⟨hretained, hle⟩ := expirePayloads_retained b.payloadTtl now h.retained
  have hexpire : TrackingBounded (tracking (expire b now)) :=
    ⟨hretained, hle.trans h.payloadOrder, h.seenCurrent, h.seenPrevious⟩
  rcases tick_tracking b now with heq | heq
  · rw [heq]
    exact hexpire
  · rw [heq]
    exact hexpire.rotateSeen now

end

/-! ## The parking half -/

/-- The bounds on parked groups, and what the index may map. -/
structure ParkingBounded (p : Parking) : Prop where
  parked : p.parked.entries.length ≤ MAX_PARKED_GROUPS
  index : ∀ seq key, p.parkedBySeq.lookup seq = some key →
    ∃ g, p.parked.lookup key = some g ∧ seq ∈ g.missing

theorem erase_length_lt {key : UInt64} {parked : ParkedMap} (h : key ∈ parked) :
    (parked.erase key).entries.length < parked.entries.length := by
  have hsub : List.Sublist (List.kerase key parked.entries) parked.entries :=
    List.kerase_sublist key parked.entries
  refine lt_of_le_of_ne hsub.length_le fun heq => ?_
  have hsame : parked.erase key = parked := AList.ext (hsub.eq_of_length heq)
  rw [← hsame] at h
  exact (AList.mem_erase.mp h).1 rfl

/-- There is an oldest group, if there is one at all. -/
theorem exists_oldestParked (tie : Nat) (h : b.parked.entries ≠ []) :
    ∃ key, b.oldestParked tie = some key ∧ key ∈ b.parked := by
  obtain ⟨g, hg⟩ : ∃ g, g ∈ b.parked.entries.argmin fun g => g.2.parkedAt := by
    cases hmin : b.parked.entries.argmin fun g => g.2.parkedAt with
    | none => exact absurd (List.argmin_eq_none.mp hmin) h
    | some g => exact ⟨g, rfl⟩
  generalize holdest : (b.parked.entries.filter fun g =>
    b.parked.entries.all fun g' => g.2.parkedAt ≤ g'.2.parkedAt) = oldest
  have hmem : g ∈ oldest := by
    rw [← holdest, List.mem_filter, List.all_eq_true]
    refine ⟨List.argmin_mem hg, fun g' hg' => decide_eq_true ?_⟩
    exact List.le_of_mem_argmin (f := fun g : (_ : UInt64) × ParkedGroup => g.2.parkedAt) hg' hg
  have hlt : tie % oldest.length < oldest.length :=
    Nat.mod_lt _ (List.length_pos_of_mem hmem)
  refine ⟨oldest[tie % oldest.length].1, ?_, ?_⟩
  · show ((b.parked.entries.filter _)[tie % _]?).map Sigma.fst = _
    rw [holdest, List.getElem?_eq_getElem hlt]
    rfl
  · have hsub : ∀ g ∈ oldest, g ∈ b.parked.entries := by
      intro g hg
      rw [← holdest] at hg
      exact (List.mem_filter.mp hg).1
    exact List.mem_map_of_mem (hsub _ (List.getElem_mem hlt))

section

variable (h : ParkingBounded (parking b))
include h

theorem ParkingBounded.unpark (key : UInt64) : ParkingBounded (parking (b.unpark key).1) := by
  constructor
  · refine le_trans ?_ h.parked
    unfold FecRecoveryBuffer.unpark
    cases b.parked.lookup key with
    | none => exact le_refl _
    | some g => exact (List.kerase_sublist key b.parked.entries).length_le
  · intro seq k hseq
    have hlookup : (b.unpark key).1.parkedBySeq.lookup seq = some k := hseq
    rw [unpark_parkedBySeq] at hlookup
    split at hlookup
    case isTrue => cases hlookup
    case isFalse hnot =>
      obtain ⟨g, hg, hmissing⟩ := h.index seq k hlookup
      have hne : k ≠ key := fun heq => hnot ⟨g, heq ▸ hg, hmissing⟩
      refine ⟨g, ?_, hmissing⟩
      show (b.unpark key).1.parked.lookup k = some g
      rw [unpark_lookup, if_neg hne]
      exact hg

theorem ParkingBounded.makeRoom (tie : Nat) : ParkingBounded (parking (makeRoom b tie)) := by
  rcases makeRoom_cases b tie with heq | ⟨oldest, heq⟩
  · rw [heq]
    exact h
  · rw [heq]
    exact h.unpark oldest

/-- There is room for a group once room has been made. -/
theorem makeRoom_length_lt (tie : Nat) :
    (makeRoom b tie).parked.entries.length < MAX_PARKED_GROUPS := by
  have hle : b.parked.entries.length ≤ MAX_PARKED_GROUPS := h.parked
  unfold FecRecoveryOps.makeRoom
  split
  case isFalse hlt => exact Nat.lt_of_not_le hlt
  case isTrue hfull =>
    have hne : b.parked.entries ≠ [] := by
      intro hnil
      rw [hnil] at hfull
      exact absurd hfull (by decide)
    obtain ⟨key, holdest, hmem⟩ := exists_oldestParked tie hne
    obtain ⟨g, hg⟩ := exists_lookup hmem
    rw [holdest]
    show (b.dropParked key).parked.entries.length < MAX_PARKED_GROUPS
    have hdrop : (b.dropParked key).parked = b.parked.erase key := by
      simp only [dropParked, FecRecoveryBuffer.unpark, hg]
    rw [hdrop]
    exact (erase_length_lt hmem).trans_le hle

theorem ParkingBounded.park (now : Instant) (tie : Nat) (key : UInt64) (shares : ShareSet)
    (missing : List UInt64) (habsent : b.parked.lookup key = none) :
    ParkingBounded (parking (b.park now tie key shares missing)) := by
  have hroom := h.makeRoom tie
  rw [park_eq]
  constructor
  · show ((FecRecoveryOps.makeRoom b tie).parked.insert key _).entries.length ≤ _
    rw [AList.entries_insert, List.length_cons]
    exact (Nat.succ_le_succ (List.kerase_sublist key _).length_le).trans
      (makeRoom_length_lt h tie)
  · intro seq k hseq
    have hlookup : (insertAll (FecRecoveryOps.makeRoom b tie).parkedBySeq key missing).lookup seq =
        some k := hseq
    rw [lookup_insertAll] at hlookup
    show ∃ g, ((FecRecoveryOps.makeRoom b tie).parked.insert key _).lookup k = some g ∧ _
    split at hlookup
    case isTrue hmem =>
      obtain rfl : key = k := Option.some.inj hlookup
      exact ⟨_, AList.lookup_insert _, hmem⟩
    case isFalse =>
      obtain ⟨g, hg, hmissing⟩ := hroom.index seq k hlookup
      -- Another group's entry: nothing was parked under `key`.
      have hne : k ≠ key := by
        rintro rfl
        have hold := makeRoom_parked_shrinks b tie k g hg
        rw [habsent] at hold
        cases hold
      exact ⟨g, (AList.lookup_insert_ne hne).trans hg, hmissing⟩

theorem ParkingBounded.eraseIndex (seq : UInt64) :
    ParkingBounded (parking { b with parkedBySeq := b.parkedBySeq.erase seq }) :=
  ⟨h.parked, fun s key hs => h.index s key (shrinks_erase _ seq s key hs)⟩

theorem ParkingBounded.dropAll (keys : List UInt64) :
    ParkingBounded (parking (dropAll b keys)) := by
  induction keys generalizing b with
  | nil => exact h
  | cons key keys ih => exact ih (h.unpark key)

end

/-! ## The calls -/

/-- The bounds of the whole buffer. -/
structure Bounded (b : FecRecoveryBuffer) : Prop where
  tracking : TrackingBounded (tracking b)
  parking : ParkingBounded (parking b)

section

variable (h : Bounded b)
include h

theorem Bounded.noteSeq (seq : UInt64) : Bounded (b.noteSeq seq) :=
  ⟨h.tracking.noteSeq seq, by rw [noteSeq_parking]; exact h.parking⟩

theorem Bounded.deliverAll (env : CallEnv) (frames : List Member) :
    Bounded (deliverAll env 0 b frames) :=
  ⟨h.tracking.deliverAll env 0 frames, by rw [deliverAll_parking]; exact h.parking⟩

theorem Bounded.unpark (key : UInt64) : Bounded (b.unpark key).1 :=
  ⟨by rw [unpark_tracking]; exact h.tracking, h.parking.unpark key⟩

theorem Bounded.park (now : Instant) (tie : Nat) {key : UInt64}
    (shares : ShareSet) (missing : List UInt64) (habsent : b.parked.lookup key = none) :
    Bounded (b.park now tie key shares missing) :=
  ⟨by rw [park_tracking]; exact h.tracking, h.parking.park now tie key shares missing habsent⟩

theorem Bounded.recheckParkedFor (env : CallEnv) (seq : UInt64) :
    Bounded (b.recheckParkedFor env seq) := by
  cases hkey : b.parkedBySeq.lookup seq with
  | none =>
    rw [recheckParkedFor_none hkey]
    exact h
  | some key =>
    have herased : Bounded { b with parkedBySeq := b.parkedBySeq.erase seq } :=
      ⟨h.tracking, h.parking.eraseIndex seq⟩
    have hreleased : Bounded (released b seq key) := herased.unpark key
    have habsent : (released b seq key).parked.lookup key = none := by
      rw [released, unpark_lookup, if_pos rfl]
    cases hg : b.parked.lookup key with
    | none =>
      rw [recheckParkedFor_absent hkey hg]
      exact herased
    | some g =>
      rw [recheckParkedFor_eq hkey hg]
      cases (released b seq key).reconstruct g.shares with
      | Recovered frames =>
        have hdelivered := hreleased.deliverAll env frames
        exact ⟨hdelivered.tracking, hdelivered.parking.parked, hdelivered.parking.index⟩
      | AlreadyComplete => exact hreleased
      | Unrecoverable => exact ⟨hreleased.tracking, hreleased.parking⟩
      | NeedMore missing => exact hreleased.park _ _ _ missing habsent

theorem Bounded.observeData (env : CallEnv) (seq : UInt64) (plaintext : Bytes) :
    Bounded (b.observeData env seq plaintext).1 := by
  have hnoted := h.noteSeq seq
  by_cases hseen : Seen (b.noteSeq seq) seq
  · rw [observeData_seen hseen]
    exact hnoted
  · have hstored : Bounded (stored b env seq plaintext) :=
      ⟨hnoted.tracking.accept _ _ seq plaintext, by
        rw [stored, accept_parking]
        exact hnoted.parking⟩
    rw [observeData_fresh hseen]
    show Bounded (if _ then _ else _)
    split
    · exact hstored
    · exact hstored.recheckParkedFor _ seq

theorem Bounded.tryRecover (env : CallEnv) (kind : ParityKind)
    (parity : FecParityPayload) : Bounded (b.tryRecover env kind parity).1 := by
  by_cases hform : WellFormed parity
  · have htaken : Bounded (taken b parity) := (h.noteSeq _).unpark _
    have habsent : (taken b parity).parked.lookup (parity.memberSeqs.headD 0) = none := by
      rw [taken, unpark_lookup, if_pos rfl]
    rw [tryRecover_eq hform]
    cases (taken b parity).reconstruct (merged b kind parity) with
    | Recovered frames => exact htaken.deliverAll env frames
    | AlreadyComplete => exact htaken
    | Unrecoverable => exact htaken
    | NeedMore missing => exact htaken.park _ _ _ missing habsent
  · rw [tryRecover_malformed hform]
    exact h

theorem Bounded.tick (now : Instant) : Bounded (b.tick now).1 := by
  refine ⟨h.tracking.tick now, ?_⟩
  have hexpire : ParkingBounded (FecRecoveryOps.parking (expire b now)) := h.parking
  rw [tick_parking]
  exact hexpire.dropAll (expiredKeys b now)

theorem Bounded.step (call : Call) : Bounded (step b call).1 := by
  cases call with
  | observeData env seq plaintext => exact h.observeData env seq plaintext
  | tryRecover env kind parity => exact h.tryRecover env kind parity
  | takeLateRecoveries => exact ⟨h.tracking, h.parking.parked, h.parking.index⟩
  | tick now => exact h.tick now

end

theorem bounded_withParams (parityCount : UInt8) (payloadTtl seenGeneration : Nat)
    (now : Instant) : Bounded (withParams parityCount payloadTtl seenGeneration now) where
  tracking := ⟨retained_empty, Nat.zero_le _, Nat.zero_le _, Nat.zero_le _⟩
  parking := by
    refine ⟨Nat.zero_le _, fun seq key hseq => ?_⟩
    have hempty : (∅ : AList fun _ : UInt64 => UInt64).lookup seq = some key := hseq
    rw [AList.lookup_empty] at hempty
    cases hempty

theorem bounded_run (parityCount : UInt8) (payloadTtl seenGeneration : Nat) (now : Instant)
    (calls : List Call) :
    Bounded (Mealy.run step (withParams parityCount payloadTtl seenGeneration now) calls) := by
  have hstep : ∀ b call, Bounded b → call ∈ calls → Bounded (step b call).1 ∧ True :=
    fun b call hb _ => ⟨hb.step call, trivial⟩
  exact (Mealy.invariant_log (P := fun _ _ => True) hstep
    (bounded_withParams parityCount payloadTtl seenGeneration now) fun _ hcall => hcall).1

/-- The memory of the receiver is bounded after every run of its calls, with or without
ticks: the plaintexts and their eviction order, both generations, the parked groups, and the
index, which maps missing members of parked groups and nothing else. -/
theorem memory_bounded (parityCount : UInt8) (payloadTtl seenGeneration : Nat) (now : Instant)
    (calls : List Call) :
    let b := Mealy.run step (withParams parityCount payloadTtl seenGeneration now) calls
    b.payloads.entries.length ≤ 4096 ∧
    (b.payloadOrder.Nodup ∧ ∀ seq, seq ∈ b.payloadOrder ↔ seq ∈ b.payloads) ∧
    b.seenCurrent.card ≤ 131072 ∧ b.seenPrevious.card ≤ 131073 ∧
    b.parked.entries.length ≤ 512 ∧
    (∀ seq key, b.parkedBySeq.lookup seq = some key →
      ∃ g, b.parked.lookup key = some g ∧ seq ∈ g.missing) ∧
    (b.parked.entries = [] → b.parkedBySeq.entries = []) := by
  intro b
  obtain ⟨⟨hretained, horder, hcurrent, hprevious⟩, ⟨hparked, hindex⟩⟩ :=
    bounded_run parityCount payloadTtl seenGeneration now calls
  refine ⟨hretained.length_eq ▸ horder, ⟨hretained.nodup, hretained.mem_iff⟩, hcurrent,
    hprevious, hparked, hindex, fun hnone => ?_⟩
  refine List.eq_nil_iff_forall_not_mem.mpr fun entry hentry => ?_
  obtain ⟨g, hg, -⟩ := hindex entry.1 entry.2 (AList.mem_lookup_iff.mpr hentry)
  have hmem : (⟨entry.2, g⟩ : (_ : UInt64) × ParkedGroup) ∈ b.parked.entries :=
    AList.mem_lookup_iff.mp hg
  rw [hnone] at hmem
  exact absurd hmem List.not_mem_nil

end Mlvpn.Ports.FecRecoveryBounds
