import Mlvpn.Ports.FecRecoverySeen

/-!
# Groups do not disturb each other

Fix the sequence numbers `S` of one group and the key `key` it parks under.
Frames and shares that name nothing in `S` leave everything the buffer knows
about the group alone: its parked entry and index, and — up to eviction and
forgetting, which can only remove — its plaintexts and generations.

## Main results

* `step_foreign` — the frame rule, with the separation invariant `Foreign` it needs
  and keeps.
* `group_isolated` — the same over whole runs of other groups' calls.
-/

namespace Mlvpn.Ports.FecRecoveryFrame

open Protocol FecSend FecRecovery FecRecoveryBuffer FecRecoveryOps FecRecoverySeen
open Verified Verified.AssocMap

variable {S : List UInt64} {key : UInt64} {b b' b'' : FecRecoveryBuffer}

/-- The shares name nothing in `S`. -/
def SharesOff (S : List UInt64) (shares : ShareSet) : Prop := ∀ s, Named shares s → s ∉ S

/-- Parked groups other than `key` have nothing to do with `S`, and the index
agrees. -/
structure Foreign (S : List UInt64) (key : UInt64) (b : FecRecoveryBuffer) : Prop where
  parked : ∀ k g, b.parked.lookup k = some g → k ≠ key →
    SharesOff S g.shares ∧ ∀ s ∈ g.missing, s ∉ S
  own : ∀ g, b.parked.lookup key = some g → ∀ s ∈ g.missing, s ∈ S
  index : ∀ s k, b.parkedBySeq.lookup s = some k → (k = key ↔ s ∈ S)

/-- From `b` to `b'` nothing about `S` changed, except that plaintexts and
generations may have lost entries. -/
structure Steady (S : List UInt64) (key : UInt64) (b b' : FecRecoveryBuffer) : Prop where
  parked : b'.parked.lookup key = b.parked.lookup key
  index : ∀ s ∈ S, b'.parkedBySeq.lookup s = b.parkedBySeq.lookup s
  seen : ∀ s ∈ S, Seen b' s → Seen b s
  payloads : ∀ s ∈ S, ∀ v, b'.payloads.lookup s = some v → b.payloads.lookup s = some v
  parityCount : b'.parityCount = b.parityCount

/-- Moreover nothing in `S` was recovered late. -/
structure Undisturbed (S : List UInt64) (key : UInt64) (b b' : FecRecoveryBuffer) : Prop
    extends Steady S key b b' where
  late : ∃ new, b'.lateRecoveries = b.lateRecoveries ++ new ∧ ∀ m ∈ new, m.1 ∉ S

theorem Undisturbed.refl : Undisturbed S key b b where
  parked := rfl
  index := fun _ _ => rfl
  seen := fun _ _ h => h
  payloads := fun _ _ _ h => h
  late := ⟨[], by simp, by simp⟩
  parityCount := rfl

theorem Steady.trans (h : Steady S key b b') (h' : Steady S key b' b'') : Steady S key b b'' where
  parked := h'.parked.trans h.parked
  index := fun s hs => (h'.index s hs).trans (h.index s hs)
  seen := fun s hs hseen => h.seen s hs (h'.seen s hs hseen)
  payloads := fun s hs v hv => h.payloads s hs v (h'.payloads s hs v hv)
  parityCount := h'.parityCount.trans h.parityCount

theorem Undisturbed.trans (h : Undisturbed S key b b') (h' : Undisturbed S key b' b'') :
    Undisturbed S key b b'' where
  toSteady := h.toSteady.trans h'.toSteady
  late := by
    obtain ⟨new, hnew, hoff⟩ := h.late
    obtain ⟨new', hnew', hoff'⟩ := h'.late
    refine ⟨new ++ new', by rw [hnew', hnew, List.append_assoc], ?_⟩
    intro m hm
    rcases List.mem_append.1 hm with hm | hm
    · exact hoff m hm
    · exact hoff' m hm

/-! ## The tracking half -/

/-- An operation on the tracking half that adds nothing in `S`. -/
theorem undisturbed_of_parking (hpark : parking b' = parking b)
    (hseen : ∀ s ∈ S, Seen b' s → Seen b s)
    (hpay : ∀ s ∈ S, ∀ v, b'.payloads.lookup s = some v → b.payloads.lookup s = some v)
    (hcount : b'.parityCount = b.parityCount) : Undisturbed S key b b' where
  parked := by rw [show b'.parked = b.parked from congrArg Parking.parked hpark]
  index := fun s _ => by
    rw [show b'.parkedBySeq = b.parkedBySeq from congrArg Parking.parkedBySeq hpark]
  seen := hseen
  payloads := hpay
  late := ⟨[], (congrArg Parking.lateRecoveries hpark).trans (List.append_nil _).symm, by simp⟩
  parityCount := hcount

theorem Foreign.of_parking (h : Foreign S key b) (hpark : parking b' = parking b) :
    Foreign S key b' := by
  obtain ⟨h1, h2, -⟩ := Parking.mk.inj hpark
  refine { parked := ?_, own := ?_, index := ?_ }
  · rw [h1]
    exact h.parked
  · rw [h1]
    exact h.own
  · rw [h2]
    exact h.index

variable {seq : UInt64}

theorem undisturbed_noteSeq (h : NoRestart b seq) : Undisturbed S key b (b.noteSeq seq) :=
  undisturbed_of_parking (noteSeq_parking b seq) (fun s _ => (seen_noteSeq h s).1)
    (fun s _ => noteSeq_payloads_shrinks b seq s) (noteSeq_parityCount b seq)

variable {s : UInt64}

/-- A mark adds one number to the generations and may drop an old one. -/
theorem seen_markSeen (now : Instant) (h : Seen (b.markSeen now seq) s) : s = seq ∨ Seen b s := by
  rcases markSeen_cases b now seq with heq | heq
  · rw [heq] at h
    rcases h with hcur | hprev
    · rcases Finset.mem_insert.1 hcur with hself | hcur
      · exact Or.inl hself
      · exact Or.inr (Or.inl hcur)
    · exact Or.inr (Or.inr hprev)
  · rw [heq] at h
    rcases h with hcur | hprev
    · simp [rotateSeen] at hcur
    · rcases Finset.mem_insert.1 hprev with hself | hcur
      · exact Or.inl hself
      · exact Or.inr (Or.inl hcur)

theorem seen_accept {t t' : Instant} {plaintext : Bytes}
    (h : Seen (b.accept t t' seq plaintext) s) : s = seq ∨ Seen b s :=
  seen_markSeen t h

theorem undisturbed_accept (hseq : seq ∉ S) (t t' : Instant) (plaintext : Bytes) :
    Undisturbed S key b (b.accept t t' seq plaintext) := by
  apply undisturbed_of_parking (accept_parking b t t' seq plaintext)
  · intro s hs hseen
    rcases seen_accept hseen with rfl | hold
    · exact absurd hs hseq
    · exact hold
  · intro s hs v hv
    rcases lookup_accept hv with ⟨rfl, -⟩ | hold
    · exact absurd hs hseq
    · exact hold
  · exact accept_parityCount b t t' seq plaintext

theorem undisturbed_deliverAll {frames : List Member} (hoff : ∀ m ∈ frames, m.1 ∉ S)
    (env : CallEnv) (i : Nat) : Undisturbed S key b (deliverAll env i b frames) :=
  deliverAll_induction (P := fun b' => Undisturbed S key b b') env i Undisturbed.refl
    fun _ t t' m hm h => h.trans (undisturbed_accept (hoff m hm) t t' m.2)

/-! ## The parking half -/

/-- An operation that leaves the tracking half alone. -/
theorem undisturbed_of_tracking (htrack : tracking b' = tracking b)
    (hlate : b'.lateRecoveries = b.lateRecoveries)
    (hparked : b'.parked.lookup key = b.parked.lookup key)
    (hindex : ∀ s ∈ S, b'.parkedBySeq.lookup s = b.parkedBySeq.lookup s) :
    Undisturbed S key b b' := by
  obtain ⟨h1, -, h3, h4, -, -, -, h8⟩ := Tracking.mk.inj htrack
  refine { parked := hparked, index := hindex, seen := ?_, payloads := ?_, late := ?_,
           parityCount := h8 }
  · intro s _ hseen
    unfold Seen at hseen ⊢
    rwa [h3, h4] at hseen
  · intro s _ v hv
    rwa [h1] at hv
  · exact ⟨[], by simpa using hlate, by simp⟩

theorem Foreign.unpark (h : Foreign S key b) (k : UInt64) : Foreign S key (b.unpark k).1 where
  parked := fun k' g hg => h.parked k' g (unpark_parked_shrinks b k k' g hg)
  own := fun g hg => h.own g (unpark_parked_shrinks b k key g hg)
  index := fun s k' hlook => by
    rw [unpark_parkedBySeq] at hlook
    split at hlook
    · simp at hlook
    · exact h.index s k' hlook

/-- Unparking another group takes only its own index entries away. -/
theorem unpark_foreign (h : Foreign S key b) {k : UInt64} (hk : k ≠ key) :
    Foreign S key (b.unpark k).1 ∧ Undisturbed S key b (b.unpark k).1 := by
  have hindex : ∀ s ∈ S, (b.unpark k).1.parkedBySeq.lookup s = b.parkedBySeq.lookup s := by
    intro s hs
    rw [unpark_parkedBySeq, if_neg]
    rintro ⟨g, hg, hmem⟩
    exact (h.parked k g hg hk).2 s hmem hs
  have hkey : (b.unpark k).1.parked.lookup key = b.parked.lookup key := by
    rw [unpark_lookup, if_neg (Ne.symm hk)]
  exact ⟨h.unpark k,
    undisturbed_of_tracking (unpark_tracking b k) (unpark_lateRecoveries b k) hkey hindex⟩

section

variable (h : b.parked.entries.length < MAX_PARKED_GROUPS)
include h

/-- Below the cap, parking makes no room by evicting. -/
theorem makeRoom_of_lt (tie : Nat) : makeRoom b tie = b := by
  unfold makeRoom
  rw [if_neg (by omega)]

theorem park_lookup (now : Instant) (tie : Nat)
    (k : UInt64) (shares : ShareSet) (missing : List UInt64) (k' : UInt64) :
    (b.park now tie k shares missing).parked.lookup k' =
      if k' = k then some { parkedAt := now, shares, missing } else b.parked.lookup k' := by
  rw [park_eq, makeRoom_of_lt h]
  by_cases hk : k' = k
  · subst hk
    simp
  · simp [hk, AList.lookup_insert_ne hk]

theorem park_parkedBySeq (now : Instant)
    (tie : Nat) (k : UInt64) (shares : ShareSet) (missing : List UInt64) (s : UInt64) :
    (b.park now tie k shares missing).parkedBySeq.lookup s =
      if s ∈ missing then some k else b.parkedBySeq.lookup s := by
  rw [park_eq, makeRoom_of_lt h]
  exact lookup_insertAll _ _ _ _

end

theorem park_foreign (h : Foreign S key b) (hroom : b.parked.entries.length < MAX_PARKED_GROUPS)
    {k : UInt64} (hk : k ≠ key) {shares : ShareSet} (hoff : SharesOff S shares)
    {missing : List UInt64} (hmissing : ∀ s ∈ missing, s ∉ S) (now : Instant) (tie : Nat) :
    Foreign S key (b.park now tie k shares missing) ∧
      Undisturbed S key b (b.park now tie k shares missing) := by
  have hkey : (b.park now tie k shares missing).parked.lookup key = b.parked.lookup key := by
    rw [park_lookup hroom, if_neg (Ne.symm hk)]
  have hindex : ∀ s ∈ S,
      (b.park now tie k shares missing).parkedBySeq.lookup s = b.parkedBySeq.lookup s := by
    intro s hs
    rw [park_parkedBySeq hroom, if_neg (fun hmem => hmissing s hmem hs)]
  refine ⟨{ parked := ?_, own := ?_, index := ?_ },
    undisturbed_of_tracking (park_tracking ..) (park_lateRecoveries ..) hkey hindex⟩
  · intro k' g hg hk'
    rcases lookup_park hg with ⟨-, rfl⟩ | hold
    · exact ⟨hoff, hmissing⟩
    · exact h.parked k' g hold hk'
  · intro g hg
    rw [hkey] at hg
    exact h.own g hg
  · intro s k' hlook
    rw [park_parkedBySeq hroom] at hlook
    split at hlook
    · rename_i hmem
      obtain rfl : k = k' := Option.some.inj hlook
      exact iff_of_false hk (hmissing s hmem)
    · exact h.index s k' hlook

/-- The group's own entry, for members of its own. -/
theorem Foreign.park_own (h : Foreign S key b)
    (hroom : b.parked.entries.length < MAX_PARKED_GROUPS) {missing : List UInt64}
    (hmissing : ∀ s ∈ missing, s ∈ S) (now : Instant) (tie : Nat) (shares : ShareSet) :
    Foreign S key (b.park now tie key shares missing) where
  parked := fun k g hg hk => by
    rw [park_lookup hroom, if_neg hk] at hg
    exact h.parked k g hg hk
  own := fun g hg s hs => by
    rw [park_lookup hroom, if_pos rfl] at hg
    obtain rfl := Option.some.inj hg
    exact hmissing s hs
  index := fun s k hlook => by
    rw [park_parkedBySeq hroom] at hlook
    split at hlook
    · rename_i hmem
      exact iff_of_true (Option.some.inj hlook).symm (hmissing s hmem)
    · exact h.index s k hlook

/-- A removed entry leaves no more entries than there were. -/
theorem unpark_length (b : FecRecoveryBuffer) (k : UInt64) :
    (b.unpark k).1.parked.entries.length ≤ b.parked.entries.length := by
  unfold unpark
  cases hg : b.parked.lookup k with
  | none => exact le_rfl
  | some g =>
    change (List.kerase k b.parked.entries).length ≤ _
    exact (List.kerase_sublist k b.parked.entries).length_le

/-! ## The calls -/

/-- Rechecking a foreign group. -/
theorem recheckParkedFor_foreign (h : Foreign S key b)
    (hroom : b.parked.entries.length < MAX_PARKED_GROUPS) (hseq : seq ∉ S) (env : CallEnv) :
    Foreign S key (b.recheckParkedFor env seq) ∧
      Undisturbed S key b (b.recheckParkedFor env seq) := by
  cases hk : b.parkedBySeq.lookup seq with
  | none =>
    rw [recheckParkedFor_none hk]
    exact ⟨h, Undisturbed.refl⟩
  | some k =>
    have hne : k ≠ key := fun heq => hseq ((h.index seq k hk).1 heq)
    -- The recheck first drops the index entry of the frame that arrived.
    have herase : Foreign S key { b with parkedBySeq := b.parkedBySeq.erase seq } :=
      { parked := h.parked
        own := h.own
        index := fun s k' hlook => h.index s k' (shrinks_erase _ seq s k' hlook) }
    have hundo : Undisturbed S key b { b with parkedBySeq := b.parkedBySeq.erase seq } := by
      refine undisturbed_of_tracking rfl rfl rfl fun s hs => AList.lookup_erase_ne ?_
      rintro rfl
      exact hseq hs
    cases hg : b.parked.lookup k with
    | none =>
      rw [recheckParkedFor_absent hk hg]
      exact ⟨herase, hundo⟩
    | some g =>
      obtain ⟨hrel, hrelUndo⟩ := unpark_foreign herase hne
      have hstart : Undisturbed S key b (released b seq k) := hundo.trans hrelUndo
      have hlen : (released b seq k).parked.entries.length < MAX_PARKED_GROUPS :=
        lt_of_le_of_lt (unpark_length _ k) hroom
      have hoff := (h.parked k g hg hne).1
      rw [recheckParkedFor_eq hk hg]
      cases hrec : (released b seq k).reconstruct g.shares with
      | AlreadyComplete => exact ⟨hrel, hstart⟩
      | Unrecoverable =>
        exact ⟨hrel.of_parking rfl, hstart.trans (undisturbed_of_parking rfl
          (fun _ _ hs => hs) (fun _ _ _ hv => hv) rfl)⟩
      | NeedMore missing =>
        obtain ⟨hpark, hparkUndo⟩ := park_foreign hrel hlen hne hoff
          (fun s hs => hoff s (needMore_named hrec s hs)) g.parkedAt env.tie
        exact ⟨hpark, hstart.trans hparkUndo⟩
      | Recovered frames =>
        have hframes : ∀ m ∈ frames, m.1 ∉ S :=
          fun m hm => hoff m.1 (recovered_named hrec m hm).1
        have hdel : Undisturbed S key (released b seq k)
            (deliverAll env 0 (released b seq k) frames) :=
          undisturbed_deliverAll hframes env 0
        have hfor := hrel.of_parking (deliverAll_parking env 0 (released b seq k) frames)
        refine ⟨{ parked := hfor.parked, own := hfor.own, index := hfor.index },
          (hstart.trans hdel).trans
            { parked := rfl, index := fun _ _ => rfl, seen := fun _ _ hs => hs,
              payloads := fun _ _ _ hv => hv, late := ⟨frames, rfl, hframes⟩,
              parityCount := rfl }⟩

theorem observeData_foreign (h : Foreign S key b)
    (hroom : b.parked.entries.length < MAX_PARKED_GROUPS) (hseq : seq ∉ S)
    (hrestart : NoRestart b seq) (env : CallEnv) (plaintext : Bytes) :
    Foreign S key (b.observeData env seq plaintext).1 ∧
      Undisturbed S key b (b.observeData env seq plaintext).1 := by
  have hnote : Undisturbed S key b (b.noteSeq seq) := undisturbed_noteSeq hrestart
  have hfor := h.of_parking (noteSeq_parking b seq)
  by_cases hseen : Seen (b.noteSeq seq) seq
  · rw [observeData_seen hseen]
    exact ⟨hfor, hnote⟩
  · have hacc : Undisturbed S key b (stored b env seq plaintext) :=
      hnote.trans (undisturbed_accept hseq _ _ plaintext)
    have hpark : parking (stored b env seq plaintext) = parking b :=
      (accept_parking ..).trans (noteSeq_parking b seq)
    have hfor' := h.of_parking hpark
    rw [observeData_fresh hseen]
    split
    · exact ⟨hfor', hacc⟩
    · have hroom' : (stored b env seq plaintext).parked.entries.length < MAX_PARKED_GROUPS := by
        rw [show (stored b env seq plaintext).parked = b.parked from
          congrArg Parking.parked hpark]
        exact hroom
      obtain ⟨hre, hreUndo⟩ := recheckParkedFor_foreign hfor' hroom' hseq
        { env with clock := fun i => env.clock (i + 2) }
      exact ⟨hre, hacc.trans hreUndo⟩

theorem tryRecover_foreign (h : Foreign S key b)
    (hroom : b.parked.entries.length < MAX_PARKED_GROUPS) (hkey : key ∈ S)
    {parity : FecParityPayload} (hoff : ∀ s ∈ parity.memberSeqs, s ∉ S)
    (hrestart : NoRestart b (maxSeq parity)) (env : CallEnv) (kind : ParityKind) :
    Foreign S key (b.tryRecover env kind parity).1 ∧
      Undisturbed S key b (b.tryRecover env kind parity).1 ∧
      ∀ m ∈ (Reply.outcome (b.tryRecover env kind parity).2).recovered, m.1 ∉ S := by
  by_cases hwf : WellFormed parity
  · have hne : parity.memberSeqs.headD 0 ≠ key := by
      intro heq
      obtain ⟨s, rest, hcons⟩ := List.exists_cons_of_ne_nil hwf.2
      rw [hcons, List.headD_cons] at heq
      exact hoff s (by simp [hcons]) (heq ▸ hkey)
    have hnote : Undisturbed S key b (b.noteSeq (maxSeq parity)) := undisturbed_noteSeq hrestart
    have hpark := noteSeq_parking b (maxSeq parity)
    obtain ⟨htaken, htakenUndo⟩ := unpark_foreign (h.of_parking hpark) hne
    have hstart : Undisturbed S key b (taken b parity) := hnote.trans htakenUndo
    have hlen : (taken b parity).parked.entries.length < MAX_PARKED_GROUPS := by
      refine lt_of_le_of_lt (unpark_length _ _) ?_
      rw [show (b.noteSeq (maxSeq parity)).parked = b.parked from congrArg Parking.parked hpark]
      exact hroom
    have hshares : SharesOff S (merged b kind parity) := by
      intro s hs
      rcases named_add hs with hnew | hold
      · exact hoff s hnew
      · unfold heldShares at hold
        cases hg : b.parked.lookup (parity.memberSeqs.headD 0) with
        | none => simp [hg, Named] at hold
        | some g =>
          rw [hg] at hold
          exact (h.parked _ g hg hne).1 s hold
    rw [tryRecover_eq hwf]
    cases hrec : (taken b parity).reconstruct (merged b kind parity) with
    | AlreadyComplete => exact ⟨htaken, hstart, by simp [Reply.recovered]⟩
    | Unrecoverable => exact ⟨htaken, hstart, by simp [Reply.recovered]⟩
    | NeedMore missing =>
      obtain ⟨hp, hpUndo⟩ := park_foreign htaken hlen hne hshares
        (fun s hs => hshares s (needMore_named hrec s hs)) (env.clock 4) env.tie
      exact ⟨hp, hstart.trans hpUndo, by simp [Reply.recovered]⟩
    | Recovered frames =>
      have hframes : ∀ m ∈ frames, m.1 ∉ S :=
        fun m hm => hshares m.1 (recovered_named hrec m hm).1
      exact ⟨htaken.of_parking (deliverAll_parking ..),
        hstart.trans (undisturbed_deliverAll hframes env 0), hframes⟩
  · rw [tryRecover_malformed hwf]
    exact ⟨h, Undisturbed.refl, by simp [Reply.recovered]⟩

/-- Dropping groups other than `key`. -/
theorem dropAll_foreign (h : Foreign S key b) {keys : List UInt64} (hkeys : key ∉ keys) :
    Foreign S key (dropAll b keys) ∧ Undisturbed S key b (dropAll b keys) := by
  induction keys generalizing b with
  | nil => exact ⟨h, Undisturbed.refl⟩
  | cons k keys ih =>
    obtain ⟨hne, hrest⟩ := List.ne_and_not_mem_of_not_mem_cons hkeys
    obtain ⟨hun, hunUndo⟩ := unpark_foreign h hne.symm
    have hfor : Foreign S key { b.dropParked k with givenUp := b.givenUp + 1 } :=
      { parked := hun.parked, own := hun.own, index := hun.index }
    obtain ⟨hall, hallUndo⟩ := ih hfor hrest
    refine ⟨hall, Undisturbed.trans ?_ hallUndo⟩
    exact
      { parked := hunUndo.parked, index := hunUndo.index, seen := hunUndo.seen,
        payloads := hunUndo.payloads, late := hunUndo.late, parityCount := hunUndo.parityCount }

theorem seen_rotateSeen (now : Instant) (h : Seen (b.rotateSeen now) s) : Seen b s := by
  rcases h with hcur | hprev
  · simp [rotateSeen] at hcur
  · exact Or.inl hprev

/-- A tick that does not give up the group itself. -/
theorem tick_foreign (h : Foreign S key b) {now : Instant} (hkeep : key ∉ expiredKeys b now) :
    Foreign S key (b.tick now).1 ∧ Undisturbed S key b (b.tick now).1 := by
  have hexp : Foreign S key (expire b now) :=
    { parked := h.parked, own := h.own, index := h.index }
  have hexpUndo : Undisturbed S key b (expire b now) :=
    undisturbed_of_parking rfl (fun _ _ hs => hs)
      (fun s _ v hv => expirePayloads_shrinks _ _ _ _ s v hv) rfl
  obtain ⟨hdrop, hdropUndo⟩ := dropAll_foreign hexp hkeep
  have hstart := hexpUndo.trans hdropUndo
  rw [tick_eq]
  split
  · refine ⟨{ parked := hdrop.parked, own := hdrop.own, index := hdrop.index },
      hstart.trans (undisturbed_of_parking rfl (fun s _ hs => ?_) (fun _ _ _ hv => hv) rfl)⟩
    exact seen_rotateSeen now hs
  · exact ⟨{ parked := hdrop.parked, own := hdrop.own, index := hdrop.index },
      hstart.trans (undisturbed_of_parking rfl (fun _ _ hs => hs) (fun _ _ _ hv => hv) rfl)⟩

/-! ## Whole runs -/

/-- A call that is for other groups and does not give up this one. -/
def Elsewhere (S : List UInt64) (key : UInt64) (b : FecRecoveryBuffer) : Call → Prop
  | .observeData _ seq _ => seq ∉ S
  | .tryRecover _ _ parity => ∀ s ∈ parity.memberSeqs, s ∉ S
  | .takeLateRecoveries => True
  | .tick now => key ∉ expiredKeys b now

theorem filter_seq_off {l : List Member} (hoff : ∀ m ∈ l, m.1 ∉ S) {s : UInt64} (hs : s ∈ S) :
    l.filter (·.1 = s) = [] := by
  refine List.filter_eq_nil_iff.2 fun m hm hseq => hoff m hm ?_
  rwa [of_decide_eq_true hseq]

/-- Such a call keeps the group as it was and recovers nothing of it. -/
theorem step_foreign (h : Foreign S key b) (hkey : key ∈ S)
    (hroom : b.parked.entries.length < MAX_PARKED_GROUPS) {c : Call} (hreset : NoReset b c)
    (hc : Elsewhere S key b c) :
    Foreign S key (step b c).1 ∧ Steady S key b (step b c).1 ∧ ∀ s ∈ S,
      ((step b c).2.recovered ++ (step b c).1.lateRecoveries).filter (·.1 = s) =
        b.lateRecoveries.filter (·.1 = s) := by
  have hlate : ∀ {b'}, Undisturbed S key b b' → ∀ s ∈ S,
      b'.lateRecoveries.filter (·.1 = s) = b.lateRecoveries.filter (·.1 = s) := by
    intro b' hundo s hs
    obtain ⟨new, hnew, hoff⟩ := hundo.late
    rw [hnew, List.filter_append, filter_seq_off hoff hs, List.append_nil]
  cases c with
  | observeData env seq plaintext =>
    obtain ⟨hfor, hundo⟩ := observeData_foreign h hroom hc hreset env plaintext
    exact ⟨hfor, hundo.toSteady, hlate hundo⟩
  | tryRecover env kind parity =>
    obtain ⟨hfor, hundo, hrec⟩ := tryRecover_foreign h hroom hkey hc hreset env kind
    refine ⟨hfor, hundo.toSteady, fun s hs => ?_⟩
    rw [List.filter_append]
    exact (congrArg (· ++ _) (filter_seq_off hrec hs)).trans (hlate hundo s hs)
  | takeLateRecoveries =>
    refine ⟨⟨h.parked, h.own, h.index⟩, ?_, fun s _ => ?_⟩
    · exact ⟨rfl, fun _ _ => rfl, fun _ _ hs => hs, fun _ _ _ hv => hv, rfl⟩
    · simp [step, takeLateRecoveries, Reply.recovered]
  | tick now =>
    obtain ⟨hfor, hundo⟩ := tick_foreign h hc
    exact ⟨hfor, hundo.toSteady, hlate hundo⟩

theorem foreign_new (parityCount : UInt8) (now : Instant) :
    Foreign S key (FecRecoveryBuffer.new parityCount now) where
  parked := fun k g h => by simp [FecRecoveryBuffer.new, withParams] at h
  own := fun g h => by simp [FecRecoveryBuffer.new, withParams] at h
  index := fun s k h => by simp [FecRecoveryBuffer.new, withParams] at h

/-- **Isolation.**  Whatever calls come for other groups, in whatever order: the group's parked
shares and index stay, nothing of it becomes known, and nothing of it is recovered. -/
theorem group_isolated (h : Foreign S key b) (hkey : key ∈ S) {calls : List Call}
    (hcalls : Mealy.Along step (fun _ b c => NoReset b c ∧ Elsewhere S key b c ∧
      b.parked.entries.length < MAX_PARKED_GROUPS) [] b calls) :
    Steady S key b (Mealy.run step b calls) ∧ ∀ s ∈ S,
      ((Mealy.log step b calls).flatMap (·.2.recovered) ++
        (Mealy.run step b calls).lateRecoveries).filter (·.1 = s) =
          b.lateRecoveries.filter (·.1 = s) := by
  refine (Mealy.invariant_along (h := []) (I := fun log b' => Foreign S key b' ∧
    Steady S key b b' ∧ ∀ s ∈ S, (log.flatMap (·.2.recovered) ++ b'.lateRecoveries).filter
      (·.1 = s) = b.lateRecoveries.filter (·.1 = s)) ?_
    ⟨h, Undisturbed.refl.toSteady, fun _ _ => rfl⟩ hcalls).2
  rintro log b' c ⟨hfor, hst, hret⟩ ⟨hreset, hc, hroom⟩
  obtain ⟨hfor', hst', hret'⟩ := step_foreign hfor hkey hroom hreset hc
  refine ⟨hfor', hst.trans hst', fun s hs => ?_⟩
  rw [← hret s hs, List.flatMap_append, List.append_assoc, List.filter_append,
    List.flatMap_singleton, hret' s hs, List.filter_append]

theorem group_isolated_parked :
    let env : CallEnv := ⟨fun _ => 0, 0⟩
    let b := (FecRecoveryBuffer.new 2 0).park 0 0 10 ⟨some ⟨[10, 11], [1, 1], [5]⟩, none⟩ [10, 11]
    (b.parked.lookup 10).isSome = true ∧ (Mealy.run step b [.observeData env 40 [7],
      .tryRecover env .P ⟨[40, 41], [1, 1], [5]⟩, .tick 1]).parked.lookup 10 =
        b.parked.lookup 10 := by
  intro env b
  have hfor : Foreign [10, 11] 10 b := (foreign_new 2 0).park_own (by decide) (by simp) 0 0 _
  refine ⟨by decide +kernel, Steady.parked (group_isolated hfor (by decide) ?_).1⟩
  exact ⟨⟨by decide +kernel, (by decide : (40 : UInt64) ∉ [10, 11]), by decide +kernel⟩,
    ⟨by decide +kernel, (by simp : ∀ s ∈ [(40 : UInt64), 41], s ∉ [10, 11]), by decide +kernel⟩,
    ⟨trivial, (by decide +kernel : 10 ∉ expiredKeys _ 1), by decide +kernel⟩, trivial⟩

end Mlvpn.Ports.FecRecoveryFrame
