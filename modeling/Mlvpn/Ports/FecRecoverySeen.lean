import Mlvpn.Ports.FecRecoveryOps

/-!
# Forgetting, and what it may not cost

The buffer remembers delivered sequence numbers in two generations and forgets
the older one at every rotation.  What it forgets is at or below `seenFloor`,
so a delivered number stays *accounted for*: in a generation, or at or below the
floor.  `memberState` consults both and therefore never classifies a delivered
number as missing; `observeData` consults the generations only.

Everything here is about runs without a sequence restart.

## Main results

* `Accounted` is kept by every call (`observeData_spec`, `tryRecover_spec`,
  `tick_spec`), hence along every run (`remembers_run`).
* `recovered_fresh` — a delivered number is never recovered again, provided no
  data frame overtakes its own waiting late recovery after being forgotten.
* `accepted_once_iff` — a delivered number is refused by `observeData` exactly
  when no copy arrives after it was forgotten.
-/

namespace Mlvpn.Ports.FecRecoverySeen

open Verified Protocol FecSend FecRecovery FecRecoveryBuffer FecRecoveryOps
open Verified.AssocMap

/-! ## The seen invariant -/

/-- The buffer knows `seq` was dealt with: it is in a generation, or at or below
the floor of what the rotations have swept. -/
def Accounted (b : FecRecoveryBuffer) (seq : UInt64) : Prop :=
  Seen b seq ∨ ∃ floor ∈ b.seenFloor, seq ≤ floor

/-- Each generation lies below the highest number at the rotation that closed
it, which is what makes the floor a bound on everything forgotten. -/
structure Tracks (b : FecRecoveryBuffer) : Prop where
  current : ∀ s ∈ b.seenCurrent, s ≤ b.highestSeq
  previous : ∀ s ∈ b.seenPrevious, ∃ high ∈ b.seenRotationHigh, s ≤ high
  floor : ∀ f ∈ b.seenFloor, ∃ high ∈ b.seenRotationHigh, f ≤ high
  high : ∀ high ∈ b.seenRotationHigh, high ≤ b.highestSeq

/-- `b'` is a later state of `b`: nothing accounted for is lost. -/
structure Advances (b b' : FecRecoveryBuffer) : Prop where
  tracks : Tracks b → Tracks b'
  accounted : Tracks b → ∀ s, Accounted b s → Accounted b' s
  highest : b.highestSeq ≤ b'.highestSeq

variable {b b' b'' : FecRecoveryBuffer}

theorem Advances.trans (h : Advances b b') (h' : Advances b' b'') : Advances b b'' where
  tracks := fun ht => h'.tracks (h.tracks ht)
  accounted := fun ht s hs => h'.accounted (h.tracks ht) s (h.accounted ht s hs)
  highest := UInt64.le_trans h.highest h'.highest

/-- Only the generations, the floors and the highest number matter. -/
theorem advances_of_eq (h1 : b'.seenCurrent = b.seenCurrent)
    (h2 : b'.seenPrevious = b.seenPrevious) (h3 : b'.seenFloor = b.seenFloor)
    (h4 : b'.seenRotationHigh = b.seenRotationHigh) (h5 : b'.highestSeq = b.highestSeq) :
    Advances b b' where
  tracks := fun ht =>
    { current := by rw [h1, h5]; exact ht.current
      previous := by rw [h2, h4]; exact ht.previous
      floor := by rw [h3, h4]; exact ht.floor
      high := by rw [h4, h5]; exact ht.high }
  accounted := fun _ s hs => by
    unfold Accounted Seen at hs ⊢
    rwa [h1, h2, h3]
  highest := by
    rw [h5]
    exact UInt64.le_refl _

theorem advances_of_tracking (h : tracking b' = tracking b) : Advances b b' := by
  obtain ⟨-, -, h3, h4, h5, h6, h7, -⟩ := Tracking.mk.inj h
  exact advances_of_eq h3 h4 h5 h6 h7

/-- The number `seq` is not 2^24 or more below everything seen. -/
def NoRestart (b : FecRecoveryBuffer) (seq : UInt64) : Prop :=
  b.highestSeq.toNat < seq.toNat + 2 ^ 24

instance (b : FecRecoveryBuffer) (seq : UInt64) : Decidable (NoRestart b seq) :=
  inferInstanceAs (Decidable (_ < _))

variable {shares : ShareSet} {frames : List Member} (parityCount : UInt8) (now : Instant)
  {seq : UInt64} {log : List (Call × Reply)}

theorem noteSeq_of_noRestart (h : NoRestart b seq) :
    b.noteSeq seq = { b with highestSeq := if seq > b.highestSeq then seq else b.highestSeq } := by
  unfold noteSeq
  by_cases hgt : seq > b.highestSeq
  · rw [if_pos hgt, if_pos hgt]
  · have hle : seq ≤ b.highestSeq := UInt64.not_lt.1 hgt
    have hgap : ¬b.highestSeq - seq ≥ SEQ_RESET_GAP := by
      intro hge
      have hsub := UInt64.toNat_sub_of_le _ _ hle
      have hnat : SEQ_RESET_GAP.toNat ≤ (b.highestSeq - seq).toNat := UInt64.le_iff_toNat_le.1 hge
      have hval : SEQ_RESET_GAP.toNat = 2 ^ 24 := by decide
      unfold NoRestart at h
      omega
    rw [if_neg hgt, if_neg hgap, if_neg hgt]

theorem advances_noteSeq (h : NoRestart b seq) :
    Advances b (b.noteSeq seq) ∧ seq ≤ (b.noteSeq seq).highestSeq := by
  rw [noteSeq_of_noRestart h]
  have hle : b.highestSeq ≤ if seq > b.highestSeq then seq else b.highestSeq := by
    split
    · rename_i hgt
      exact UInt64.le_of_lt hgt
    · exact UInt64.le_refl _
  refine ⟨{ tracks := ?_, accounted := fun _ s hs => hs, highest := hle }, ?_⟩
  · intro ht
    exact
      { current := fun s hs => UInt64.le_trans (ht.current s hs) hle
        previous := ht.previous
        floor := ht.floor
        high := fun high hh => UInt64.le_trans (ht.high high hh) hle }
  · change seq ≤ if seq > b.highestSeq then seq else b.highestSeq
    split
    · exact UInt64.le_refl _
    · rename_i hgt
      exact UInt64.not_lt.1 hgt

/-- A rotation drops the older generation, and raises the floor over it. -/
theorem advances_rotateSeen : Advances b (b.rotateSeen now) where
  tracks := fun ht =>
    { current := fun s hs => by simp [rotateSeen] at hs
      previous := fun s hs => ⟨b.highestSeq, rfl, ht.current s hs⟩
      floor := fun f hf => ⟨b.highestSeq, rfl, ht.high f hf⟩
      high := fun high hh => by
        obtain rfl : b.highestSeq = high := Option.some.inj hh
        exact UInt64.le_refl _ }
  accounted := fun ht s hs => by
    rcases hs with (hcur | hprev) | ⟨f, hf, hle⟩
    · exact Or.inl (Or.inr hcur)
    · exact Or.inr (ht.previous s hprev)
    · obtain ⟨high, hh, hfh⟩ := ht.floor f hf
      exact Or.inr ⟨high, hh, UInt64.le_trans hle hfh⟩
  highest := UInt64.le_refl _

theorem advances_markSeen (hle : seq ≤ b.highestSeq) (now : Instant) :
    Advances b (b.markSeen now seq) ∧ Accounted (b.markSeen now seq) seq := by
  have hinsert : Advances b { b with seenCurrent := insert seq b.seenCurrent } :=
    { tracks := fun ht =>
        { current := fun s hs => by
            rcases Finset.mem_insert.1 hs with rfl | hs
            · exact hle
            · exact ht.current s hs
          previous := ht.previous
          floor := ht.floor
          high := ht.high }
      accounted := fun _ s hs => by
        rcases hs with (hcur | hprev) | hfloor
        · exact Or.inl (Or.inl (Finset.mem_insert_of_mem hcur))
        · exact Or.inl (Or.inr hprev)
        · exact Or.inr hfloor
      highest := UInt64.le_refl _ }
  rcases markSeen_cases b now seq with h | h
  · rw [h]
    exact ⟨hinsert, Or.inl (Or.inl (Finset.mem_insert_self _ _))⟩
  · rw [h]
    exact ⟨hinsert.trans (advances_rotateSeen now),
      Or.inl (Or.inr (Finset.mem_insert_self _ _))⟩

theorem advances_accept (hle : seq ≤ b.highestSeq) (t t' : Instant) (plaintext : Bytes) :
    Advances b (b.accept t t' seq plaintext) ∧ Accounted (b.accept t t' seq plaintext) seq := by
  obtain ⟨hadv, hacc⟩ := advances_markSeen hle t
  exact ⟨hadv.trans (advances_of_eq rfl rfl rfl rfl rfl), hacc⟩

/-- Recovered frames are accounted for once delivered. -/
theorem advances_deliverAll (hle : ∀ m ∈ frames, m.1 ≤ b.highestSeq) (ht : Tracks b) (env : CallEnv)
    (i : Nat) :
    Advances b (deliverAll env i b frames) ∧
      ∀ m ∈ frames, Accounted (deliverAll env i b frames) m.1 := by
  induction frames generalizing b i with
  | nil => exact ⟨advances_of_tracking rfl, by simp⟩
  | cons m frames ih =>
    obtain ⟨seq, data⟩ := m
    obtain ⟨hadv, hacc⟩ := advances_accept (hle (seq, data) (by simp))
      (env.clock (2 * i)) (env.clock (2 * i + 1)) data
    obtain ⟨hrest, hall⟩ := ih (i := i + 1) (fun m hm =>
      UInt64.le_trans (hle m (by simp [hm])) hadv.highest) (hadv.tracks ht)
    refine ⟨hadv.trans hrest, fun m hm => ?_⟩
    rcases List.mem_cons.1 hm with rfl | hm
    · exact hrest.accounted (hadv.tracks ht) _ hacc
    · exact hall m hm

/-! ## What a recovery may return -/

/-- A member is missing when it is neither retained, nor accounted for, nor
behind the stale window. -/
theorem memberState_eq_missing :
    b.memberState seq = .Missing ↔
      seq ∉ b.payloads ∧ ¬Accounted b seq ∧ ¬seq + STALE_SEQ_WINDOW ≤ b.highestSeq := by
  unfold memberState Accounted Seen
  by_cases hpay : seq ∈ b.payloads
  · simp [hpay]
  by_cases hseen : seq ∈ b.seenCurrent ∨ seq ∈ b.seenPrevious
  · simp only [hpay, hseen, if_true, if_false]
    simp
  by_cases hfloor : ∃ floor ∈ b.seenFloor, seq ≤ floor
  · simp only [hpay, hseen, hfloor, if_true, if_false]
    simp
  by_cases hstale : seq + STALE_SEQ_WINDOW ≤ b.highestSeq
  · simp only [hpay, hseen, hfloor, hstale, if_true, if_false]
    simp
  · simp only [hpay, hseen, hfloor, hstale, if_false]
    simp

/-- Every number the shares name is at most the highest seen. -/
def SharesBelow (b : FecRecoveryBuffer) (shares : ShareSet) : Prop :=
  ∀ s, Named shares s → s ≤ b.highestSeq

/-- Whatever the shares, a recovered number was not accounted for. -/
theorem recovered_not_accounted (hbelow : SharesBelow b shares)
    (h : b.reconstruct shares = .Recovered frames) :
    ∀ m ∈ frames, m.1 ≤ b.highestSeq ∧ ¬Accounted b m.1 := by
  intro m hm
  obtain ⟨hnamed, hmissing⟩ := recovered_named h m hm
  exact ⟨hbelow m.1 hnamed, (memberState_eq_missing.1 hmissing).2.1⟩

/-! ## One call -/

/-- The invariant of runs without a restart: the generations are bounded as they
should be, and no parked share names a number above the highest seen. -/
structure Ordered (b : FecRecoveryBuffer) : Prop where
  tracks : Tracks b
  parked : ∀ key g, b.parked.lookup key = some g → SharesBelow b g.shares

theorem ordered_new :
    Ordered (FecRecoveryBuffer.new parityCount now) where
  tracks :=
    { current := fun s hs => by simp [FecRecoveryBuffer.new, withParams] at hs
      previous := fun s hs => by simp [FecRecoveryBuffer.new, withParams] at hs
      floor := fun s hs => by simp [FecRecoveryBuffer.new, withParams] at hs
      high := fun s hs => by simp [FecRecoveryBuffer.new, withParams] at hs }
  parked := fun key g h => by simp [FecRecoveryBuffer.new, withParams] at h

theorem SharesBelow.mono (h : SharesBelow b shares) (hle : b.highestSeq ≤ b'.highestSeq) :
    SharesBelow b' shares :=
  fun s hs => UInt64.le_trans (h s hs) hle

theorem Ordered.of_advances (h : Ordered b) (hadv : Advances b b')
    (hparked : Shrinks b.parked b'.parked) : Ordered b' where
  tracks := hadv.tracks h.tracks
  parked := fun key g hg => (h.parked key g (hparked key g hg)).mono hadv.highest

theorem Ordered.park (h : Ordered b) {key : UInt64} (hshares : SharesBelow b shares) (now : Instant)
    (tie : Nat) (missing : List UInt64) : Ordered (b.park now tie key shares missing) := by
  have hadv : Advances b (b.park now tie key shares missing) :=
    advances_of_tracking (park_tracking b now tie key shares missing)
  refine { tracks := hadv.tracks h.tracks, parked := ?_ }
  intro k g hlook
  rcases lookup_park hlook with ⟨-, rfl⟩ | hold
  · exact hshares.mono hadv.highest
  · exact (h.parked k g hold).mono hadv.highest

theorem shrinks_of_parking (h : parking b' = parking b) : Shrinks b.parked b'.parked := by
  rw [show b'.parked = b.parked from congrArg Parking.parked h]
  exact Shrinks.refl _

/-- What a recheck adds to the late recoveries was not accounted for before. -/
theorem recheckParkedFor_spec (h : Ordered b) (env : CallEnv) (seq : UInt64) :
    Ordered (b.recheckParkedFor env seq) ∧ Advances b (b.recheckParkedFor env seq) ∧
      ∃ unlocked, (b.recheckParkedFor env seq).lateRecoveries = b.lateRecoveries ++ unlocked ∧
        ∀ m ∈ unlocked, ¬Accounted b m.1 ∧ Accounted (b.recheckParkedFor env seq) m.1 := by
  have hid : Advances b b := advances_of_tracking rfl
  cases hkey : b.parkedBySeq.lookup seq with
  | none =>
    rw [recheckParkedFor_none hkey]
    exact ⟨h, hid, [], by simp, by simp⟩
  | some key =>
    cases hg : b.parked.lookup key with
    | none =>
      rw [recheckParkedFor_absent hkey hg]
      have hadv : Advances b { b with parkedBySeq := b.parkedBySeq.erase seq } :=
        advances_of_tracking rfl
      exact ⟨h.of_advances hadv (Shrinks.refl _), hadv, [], by simp, by simp⟩
    | some g =>
      have hadv : Advances b (released b seq key) :=
        advances_of_tracking (released_tracking b seq key)
      have hrel := h.of_advances hadv (released_parked_shrinks b seq key)
      have hshares : SharesBelow (released b seq key) g.shares :=
        (h.parked key g hg).mono hadv.highest
      have hlate := released_lateRecoveries b seq key
      rw [recheckParkedFor_eq hkey hg]
      cases hrec : (released b seq key).reconstruct g.shares with
      | AlreadyComplete => exact ⟨hrel, hadv, [], by simp, by simp⟩
      | Unrecoverable =>
        exact ⟨hrel.of_advances (advances_of_tracking rfl) (Shrinks.refl _),
          hadv.trans (advances_of_tracking rfl), [], by simp, by simp⟩
      | NeedMore missing =>
        exact ⟨hrel.park hshares _ _ _,
          hadv.trans (advances_of_tracking (park_tracking ..)), [], by simp, by simp⟩
      | Recovered frames =>
        have hfresh := recovered_not_accounted hshares hrec
        obtain ⟨hdel, hacc⟩ := advances_deliverAll (fun m hm => (hfresh m hm).1)
          hrel.tracks env 0
        have hpark := deliverAll_parking env 0 (released b seq key) frames
        have hord := hrel.of_advances hdel (shrinks_of_parking hpark)
        refine ⟨hord.of_advances (advances_of_tracking rfl) (Shrinks.refl _),
          (hadv.trans hdel).trans (advances_of_tracking rfl), frames, ?_, ?_⟩
        · change (deliverAll env 0 (released b seq key) frames).lateRecoveries ++ frames = _
          rw [show (deliverAll env 0 (released b seq key) frames).lateRecoveries =
            (released b seq key).lateRecoveries from congrArg Parking.lateRecoveries hpark,
            hlate]
        · intro m hm
          exact ⟨fun hbefore => (hfresh m hm).2 (hadv.accounted h.tracks _ hbefore),
            hacc m hm⟩

theorem seen_noteSeq (h : NoRestart b seq) (s : UInt64) : Seen (b.noteSeq seq) s ↔ Seen b s := by
  rw [noteSeq_of_noRestart h]
  exact Iff.rfl

/-- One data frame: it is delivered exactly when no generation has it, it is
accounted for afterwards, and what it unlocks was not accounted for before. -/
theorem observeData_spec (h : Ordered b) (env : CallEnv) (plaintext : Bytes)
    (hseq : NoRestart b seq) :
    Ordered (b.observeData env seq plaintext).1 ∧
      Advances b (b.observeData env seq plaintext).1 ∧
      ((b.observeData env seq plaintext).2 = true ↔ ¬Seen b seq) ∧
      Accounted (b.observeData env seq plaintext).1 seq ∧
      ∃ unlocked,
        (b.observeData env seq plaintext).1.lateRecoveries = b.lateRecoveries ++ unlocked ∧
        ∀ m ∈ unlocked, ¬Accounted b m.1 ∧ m.1 ≠ seq ∧
          Accounted (b.observeData env seq plaintext).1 m.1 := by
  obtain ⟨hnote, hle⟩ := advances_noteSeq hseq
  have hpark := noteSeq_parking b seq
  have hord := h.of_advances hnote (shrinks_of_parking hpark)
  by_cases hseen : Seen (b.noteSeq seq) seq
  · rw [observeData_seen hseen]
    refine ⟨hord, hnote, ?_, Or.inl hseen, [], ?_, by simp⟩
    · simp [(seen_noteSeq hseq seq).1 hseen]
    · rw [List.append_nil]
      exact congrArg Parking.lateRecoveries hpark
  · obtain ⟨hacc, hmarked⟩ := advances_accept hle (env.clock 0) (env.clock 1) plaintext
    have hstored : Advances b (stored b env seq plaintext) := hnote.trans hacc
    have hspark : parking (stored b env seq plaintext) = parking b :=
      (accept_parking _ _ _ _ _).trans hpark
    have hsord := h.of_advances hstored (shrinks_of_parking hspark)
    have hslate : (stored b env seq plaintext).lateRecoveries = b.lateRecoveries :=
      congrArg Parking.lateRecoveries hspark
    have hfresh : ¬Seen b seq := fun hs => hseen ((seen_noteSeq hseq seq).2 hs)
    rw [observeData_fresh hseen]
    split
    · exact ⟨hsord, hstored, by simp [hfresh], hmarked, [], by simp [hslate], by simp⟩
    · obtain ⟨hrord, hradv, unlocked, hlate, hun⟩ := recheckParkedFor_spec hsord
        { env with clock := fun i => env.clock (i + 2) } seq
      refine ⟨hrord, hstored.trans hradv, by simp [hfresh], hradv.accounted hsord.tracks _ hmarked,
        unlocked, by rw [hlate, hslate], fun m hm => ?_⟩
      obtain ⟨hbefore, hafter⟩ := hun m hm
      refine ⟨fun hacc' => hbefore (hstored.accounted h.tracks _ hacc'), ?_, hafter⟩
      rintro rfl
      exact hbefore hmarked

instance lawfulOrderSupUInt64 : Std.LawfulOrderSup UInt64 where
  max_le_iff a b c := by
    have hmax : max a b = if a ≤ b then b else a := rfl
    rw [hmax]
    simp only [UInt64.le_iff_toNat_le]
    split <;> omega

variable {parity : FecParityPayload}

theorem le_maxSeq {s : UInt64} (hs : s ∈ parity.memberSeqs) : s ≤ maxSeq parity := by
  unfold maxSeq
  cases hmax : parity.memberSeqs.max? with
  | none =>
    rw [List.max?_eq_none_iff] at hmax
    simp [hmax] at hs
  | some m => exact (List.max?_le_iff hmax).1 (UInt64.le_refl m) s hs

/-- The shares a parity frame completes name nothing above the highest seen. -/
theorem sharesBelow_merged (h : Ordered b) (kind : ParityKind)
    (hmax : NoRestart b (maxSeq parity)) :
    SharesBelow (taken b parity) (merged b kind parity) := by
  obtain ⟨hnote, hle⟩ := advances_noteSeq hmax
  have hhigh : (b.noteSeq (maxSeq parity)).highestSeq = (taken b parity).highestSeq :=
    (congrArg Tracking.highestSeq (unpark_tracking _ _)).symm
  have hparity : ∀ s ∈ parity.memberSeqs, s ≤ (taken b parity).highestSeq := by
    intro s hs
    rw [← hhigh]
    exact UInt64.le_trans (le_maxSeq hs) hle
  have hheld : SharesBelow (taken b parity) (heldShares b (parity.memberSeqs.headD 0)) := by
    unfold heldShares
    cases hg : b.parked.lookup (parity.memberSeqs.headD 0) with
    | none => simp [SharesBelow, Named]
    | some g =>
      apply (h.parked _ g hg).mono
      rw [← hhigh]
      exact hnote.highest
  intro s hs
  rcases named_add hs with hnew | hold
  · exact hparity s hnew
  · exact hheld s hold

/-- One parity frame: what it recovers was not accounted for and is now. -/
theorem tryRecover_spec (h : Ordered b) (env : CallEnv) (kind : ParityKind)
    (hmax : NoRestart b (maxSeq parity)) :
    Ordered (b.tryRecover env kind parity).1 ∧ Advances b (b.tryRecover env kind parity).1 ∧
      (b.tryRecover env kind parity).1.lateRecoveries = b.lateRecoveries ∧
      ∀ m ∈ (Reply.outcome (b.tryRecover env kind parity).2).recovered,
        ¬Accounted b m.1 ∧ Accounted (b.tryRecover env kind parity).1 m.1 := by
  by_cases hwf : WellFormed parity
  · have hadv : Advances b (taken b parity) :=
      (advances_noteSeq hmax).1.trans (advances_of_tracking (unpark_tracking _ _))
    have hnote := noteSeq_parking b (maxSeq parity)
    have hshrink : Shrinks b.parked (taken b parity).parked :=
      (shrinks_of_parking hnote).trans (unpark_parked_shrinks _ _)
    have hord := h.of_advances hadv hshrink
    have hlate : (taken b parity).lateRecoveries = b.lateRecoveries :=
      (unpark_lateRecoveries _ _).trans (congrArg Parking.lateRecoveries hnote)
    have hshares := sharesBelow_merged h kind hmax
    rw [tryRecover_eq hwf]
    cases hrec : (taken b parity).reconstruct (merged b kind parity) with
    | AlreadyComplete => exact ⟨hord, hadv, hlate, by simp [Reply.recovered]⟩
    | Unrecoverable => exact ⟨hord, hadv, hlate, by simp [Reply.recovered]⟩
    | NeedMore missing =>
      refine ⟨hord.park hshares _ _ _, hadv.trans (advances_of_tracking (park_tracking ..)), ?_,
        by simp [Reply.recovered]⟩
      exact (park_lateRecoveries ..).trans hlate
    | Recovered frames =>
      have hfresh := recovered_not_accounted hshares hrec
      obtain ⟨hdel, hacc⟩ := advances_deliverAll (fun m hm => (hfresh m hm).1) hord.tracks env 0
      have hpark := deliverAll_parking env 0 (taken b parity) frames
      refine ⟨hord.of_advances hdel (shrinks_of_parking hpark), hadv.trans hdel, ?_, ?_⟩
      · exact (congrArg Parking.lateRecoveries hpark).trans hlate
      · intro m hm
        exact ⟨fun hbefore => (hfresh m hm).2 (hadv.accounted h.tracks _ hbefore), hacc m hm⟩
  · rw [tryRecover_malformed hwf]
    exact ⟨h, advances_of_tracking rfl, rfl, by simp [Reply.recovered]⟩

theorem tick_spec (h : Ordered b) (now : Instant) :
    Ordered (b.tick now).1 ∧ Advances b (b.tick now).1 ∧
      (b.tick now).1.lateRecoveries = b.lateRecoveries := by
  have hexpire : Advances b (expire b now) := advances_of_eq rfl rfl rfl rfl rfl
  have hadv : Advances b (b.tick now).1 := by
    rcases tick_tracking b now with ht | ht
    · exact hexpire.trans (advances_of_tracking ht)
    · exact (hexpire.trans (advances_rotateSeen now)).trans (advances_of_tracking ht)
  exact ⟨h.of_advances hadv (tick_parked_shrinks b now), hadv, tick_lateRecoveries b now⟩

/-! ## Whole runs -/

/-- The number a data frame was delivered under, if the call delivered it. -/
def accepted : Call × Reply → List UInt64
  | (.observeData _ seq _, .observed true) => [seq]
  | _ => []

/-- Every number a call handed to its caller: a data frame to deliver, or
recovered frames. -/
def delivered (e : Call × Reply) : List UInt64 := accepted e ++ e.2.recovered.map Prod.fst

/-- The arrival, if the call is one, is not a sequence restart. -/
def NoReset (b : FecRecoveryBuffer) : Call → Prop
  | .observeData _ seq _ => NoRestart b seq
  | .tryRecover _ _ parity => NoRestart b (maxSeq parity)
  | .takeLateRecoveries => True
  | .tick _ => True

instance (b : FecRecoveryBuffer) : (c : Call) → Decidable (NoReset b c)
  | .observeData _ seq _ => inferInstanceAs (Decidable (NoRestart b seq))
  | .tryRecover _ _ parity => inferInstanceAs (Decidable (NoRestart b (maxSeq parity)))
  | .takeLateRecoveries | .tick _ => inferInstanceAs (Decidable True)

/-- Everything handed out or waiting to be is accounted for. -/
structure Remembers (log : List (Call × Reply)) (b : FecRecoveryBuffer) : Prop where
  ordered : Ordered b
  delivered : ∀ e ∈ log, ∀ s ∈ delivered e, Accounted b s
  late : ∀ m ∈ b.lateRecoveries, Accounted b m.1

/-- How a later state and one more log entry extend the invariant. -/
theorem Remembers.extend {e : Call × Reply} (h : Remembers log b) (hord : Ordered b')
    (hadv : Advances b b') (he : ∀ s ∈ FecRecoverySeen.delivered e, Accounted b' s)
    (hlate : ∀ m ∈ b'.lateRecoveries, m ∈ b.lateRecoveries ∨ Accounted b' m.1) :
    Remembers (log ++ [e]) b' where
  ordered := hord
  delivered := by
    intro e' he' s hs
    rcases List.mem_append.1 he' with hold | hnew
    · exact hadv.accounted h.ordered.tracks s (h.delivered e' hold s hs)
    · rw [List.mem_singleton.1 hnew] at hs
      exact he s hs
  late := by
    intro m hm
    rcases hlate m hm with hold | hnew
    · exact hadv.accounted h.ordered.tracks _ (h.late m hold)
    · exact hnew

variable {c : Call}

theorem advances_step (h : Ordered b) (hc : NoReset b c) : Advances b (step b c).1 := by
  cases c with
  | observeData env seq plaintext => exact (observeData_spec h env plaintext hc).2.1
  | tryRecover env kind parity => exact (tryRecover_spec h env kind hc).2.1
  | takeLateRecoveries => exact advances_of_tracking rfl
  | tick now => exact (tick_spec h now).2.1

theorem Remembers.step (h : Remembers log b) (hc : NoReset b c) :
    Remembers (log ++ [(c, (step b c).2)]) (step b c).1 := by
  cases c with
  | observeData env seq plaintext =>
    obtain ⟨hord, hadv, -, hacc, unlocked, hlate, hun⟩ :=
      observeData_spec h.ordered env plaintext hc
    apply h.extend hord hadv
    · intro s hs
      have hself : s = seq := by
        cases hr : (b.observeData env seq plaintext).2 <;>
          simp [FecRecovery.step, FecRecoverySeen.delivered, accepted, Reply.recovered, hr] at hs
        exact hs
      rw [hself]
      exact hacc
    · intro m hm
      rw [hlate] at hm
      rcases List.mem_append.1 hm with hold | hnew
      · exact Or.inl hold
      · exact Or.inr (hun m hnew).2.2
  | tryRecover env kind parity =>
    obtain ⟨hord, hadv, hlate, hrec⟩ := tryRecover_spec h.ordered env kind hc
    apply h.extend hord hadv
    · intro s hs
      simp only [FecRecovery.step, FecRecoverySeen.delivered, accepted, List.nil_append] at hs
      obtain ⟨m, hm, rfl⟩ := List.mem_map.1 hs
      exact (hrec m hm).2
    · intro m hm
      rw [hlate] at hm
      exact Or.inl hm
  | takeLateRecoveries =>
    have hadv : Advances b { b with lateRecoveries := [] } := advances_of_tracking rfl
    apply h.extend (h.ordered.of_advances hadv (Shrinks.refl _)) hadv
    · intro s hs
      obtain ⟨m, hm, rfl⟩ := List.mem_map.1 hs
      exact hadv.accounted h.ordered.tracks _ (h.late m hm)
    · intro m hm
      simp at hm
  | tick now =>
    obtain ⟨hord, hadv, hlate⟩ := tick_spec h.ordered now
    apply h.extend hord hadv
    · intro s hs
      simp [FecRecovery.step, FecRecoverySeen.delivered, accepted, Reply.recovered] at hs
    · intro m hm
      rw [hlate] at hm
      exact Or.inl hm

theorem remembers_new :
    Remembers [] (FecRecoveryBuffer.new parityCount now) where
  ordered := ordered_new parityCount now
  delivered := by simp
  late := by simp [FecRecoveryBuffer.new, withParams]

/-- Along every run without a restart nothing delivered is ever unaccounted. -/
theorem remembers_run {parityCount : UInt8} {now : Instant} {calls : List Call}
    (h : Mealy.Along step (fun _ => NoReset) [] (FecRecoveryBuffer.new parityCount now) calls) :
    Remembers (Mealy.log step (FecRecoveryBuffer.new parityCount now) calls)
      (Mealy.run step (FecRecoveryBuffer.new parityCount now) calls) :=
  Mealy.invariant_along (fun _ _ _ hI hc => hI.step hc) (remembers_new parityCount now) h

/-! ## Never recovered again -/

/-- The call is no data frame whose own late recovery still waits to be taken,
or the rotations have not yet forgotten its number. -/
def NotOvertaken (b : FecRecoveryBuffer) : Call → Prop
  | .observeData _ seq _ =>
      seq ∈ b.lateRecoveries.map Prod.fst → Seen b seq ∨ ¬∃ floor ∈ b.seenFloor, seq ≤ floor
  | _ => True

instance (b : FecRecoveryBuffer) : (c : Call) → Decidable (NotOvertaken b c)
  | .observeData _ seq _ => inferInstanceAs (Decidable
      (seq ∈ b.lateRecoveries.map Prod.fst → Seen b seq ∨ ¬∃ floor ∈ b.seenFloor, seq ≤ floor))
  | .tryRecover _ _ _ | .takeLateRecoveries | .tick _ => inferInstanceAs (Decidable True)

/-- Nothing delivered is waiting among the late recoveries. -/
def Apart (log : List (Call × Reply)) (b : FecRecoveryBuffer) : Prop :=
  ∀ e ∈ log, ∀ s ∈ delivered e, s ∉ b.lateRecoveries.map Prod.fst

/-- One call keeps delivered and waiting numbers apart and recovers nothing
delivered before. -/
theorem apart_step (h : Remembers log b) (hapart : Apart log b) (hreset : NoReset b c)
    (hover : NotOvertaken b c) :
    Apart (log ++ [(c, (step b c).2)]) (step b c).1 ∧
      ∀ e ∈ log, ∀ s ∈ delivered e, s ∉ (step b c).2.recovered.map Prod.fst := by
  cases c with
  | observeData env seq plaintext =>
    obtain ⟨-, -, hdeliver, -, unlocked, hlate, hun⟩ :=
      observeData_spec h.ordered env plaintext hreset
    refine ⟨fun e he s hs hmem => ?_, by simp [FecRecovery.step, Reply.recovered]⟩
    rw [FecRecovery.step, hlate, List.map_append] at hmem
    rcases List.mem_append.1 he with hold | hnew
    · rcases List.mem_append.1 hmem with hlate' | hnew
      · exact hapart e hold s hs hlate'
      · obtain ⟨m, hm, rfl⟩ := List.mem_map.1 hnew
        exact (hun m hm).1 (h.delivered e hold _ hs)
    · rw [List.mem_singleton.1 hnew] at hs
      obtain ⟨rfl, htrue⟩ : s = seq ∧ (b.observeData env seq plaintext).2 = true := by
        cases hr : (b.observeData env seq plaintext).2 <;>
          simp [FecRecovery.step, delivered, accepted, Reply.recovered, hr] at hs
        exact ⟨hs, rfl⟩
      rcases List.mem_append.1 hmem with hlate' | hnew
      · -- A waiting recovery is accounted for, so by the guard a generation has it.
        obtain ⟨m, hm, hms⟩ := List.mem_map.1 hlate'
        have hacc : Accounted b s := hms ▸ h.late m hm
        rcases hover hlate' with hseen | habove
        · exact hdeliver.1 htrue hseen
        · rcases hacc with hseen | hfloor
          · exact hdeliver.1 htrue hseen
          · exact habove hfloor
      · obtain ⟨m, hm, hms⟩ := List.mem_map.1 hnew
        exact (hun m hm).2.1 hms
  | tryRecover env kind parity =>
    obtain ⟨-, -, hlate, hrec⟩ := tryRecover_spec h.ordered env kind hreset
    refine ⟨fun e he s hs hmem => ?_, fun e he s hs hmem => ?_⟩
    · rw [FecRecovery.step, hlate] at hmem
      rcases List.mem_append.1 he with hold | hnew
      · exact hapart e hold s hs hmem
      · rw [List.mem_singleton.1 hnew] at hs
        obtain ⟨m, hm, rfl⟩ := List.mem_map.1 (show s ∈ List.map Prod.fst _ from hs)
        obtain ⟨m', hm', heq⟩ := List.mem_map.1 hmem
        apply (hrec m hm).1
        rw [← heq]
        exact h.late m' hm'
    · obtain ⟨m, hm, rfl⟩ := List.mem_map.1 hmem
      exact (hrec m hm).1 (h.delivered e he _ hs)
  | takeLateRecoveries => exact ⟨fun e _ s _ hmem => by simp [FecRecovery.step,
      FecRecoveryBuffer.takeLateRecoveries] at hmem, hapart⟩
  | tick now =>
    obtain ⟨-, -, hlate⟩ := tick_spec h.ordered now
    refine ⟨fun e he s hs hmem => ?_, by simp [FecRecovery.step, Reply.recovered]⟩
    rw [FecRecovery.step, hlate] at hmem
    rcases List.mem_append.1 he with hold | hnew
    · exact hapart e hold s hs hmem
    · rw [List.mem_singleton.1 hnew] at hs
      simp [FecRecovery.step, delivered, accepted, Reply.recovered] at hs

/-- A number delivered once, as data or recovered, is in no later recovery. -/
theorem recovered_fresh (parityCount : UInt8) (now : Instant) (calls : List Call)
    (h : Mealy.Along step (fun _ b c => NoReset b c ∧ NotOvertaken b c) []
      (FecRecoveryBuffer.new parityCount now) calls) :
    (Mealy.log step (FecRecoveryBuffer.new parityCount now) calls).Pairwise fun e e' =>
      ∀ s ∈ delivered e, s ∉ e'.2.recovered.map Prod.fst := by
  have hinv := Mealy.invariant_along
    (I := fun log b => Remembers log b ∧ Apart log b ∧ log.Pairwise fun e e' =>
      ∀ s ∈ delivered e, s ∉ e'.2.recovered.map Prod.fst)
    (fun log b c hI hG => by
      obtain ⟨hrem, hapart, hpair⟩ := hI
      obtain ⟨hapart', hfresh⟩ := apart_step hrem hapart hG.1 hG.2
      refine ⟨hrem.step hG.1, hapart', List.pairwise_append.2 ⟨hpair, by simp, ?_⟩⟩
      intro e he e' he'
      rw [List.mem_singleton.1 he']
      exact hfresh e he)
    ⟨remembers_new parityCount now, by simp [Apart], List.Pairwise.nil⟩ h
  exact hinv.2.2

/-- The late recovery of frame 10 is taken at once, and neither a repeated share
nor the members' own copies bring 10 back. -/
theorem recovered_fresh_taken_at_once :
    let env : CallEnv := ⟨fun _ => 0, 0⟩
    let later : CallEnv := ⟨fun _ => 4000000000, 0⟩
    let share : FecParityPayload := ⟨[10, 11, 12], [3, 2, 4], [2, 15, 10, 10]⟩
    let calls : List Call :=
      [.observeData env 12 [7, 8, 9, 10], .tryRecover env .P share,
        .observeData env 11 [4, 5], .takeLateRecoveries, .tryRecover env .P share,
        .tick 2000000000, .tick 4000000000, .tryRecover later .P share]
    (Mealy.log step (FecRecoveryBuffer.new 2 0) calls).Pairwise fun e e' =>
      ∀ s ∈ delivered e, s ∉ e'.2.recovered.map Prod.fst := by
  intro env later share calls
  exact recovered_fresh 2 0 calls (by decide +kernel)

/-- Left in the queue for two rotations, the late recovery of frame 10 is handed
out after frame 10 itself was delivered. -/
theorem late_recovery_taken_after_delivery :
    let env : CallEnv := ⟨fun _ => 0, 0⟩
    let later : CallEnv := ⟨fun _ => 4000000000, 0⟩
    let calls : List Call :=
      [.observeData env 12 [7, 8, 9, 10],
        .tryRecover env .P ⟨[10, 11, 12], [3, 2, 4], [2, 15, 10, 10]⟩,
        .observeData env 11 [4, 5], .tick 2000000000, .tick 4000000000,
        .observeData later 10 [1, 2, 3], .takeLateRecoveries]
    Mealy.Along step (fun _ => NoReset) [] (FecRecoveryBuffer.new 2 0) calls ∧
      (Mealy.log step (FecRecoveryBuffer.new 2 0) calls).map Prod.snd =
        [.observed true, .outcome .Pending, .observed true, .gaveUp 0, .gaveUp 0,
          .observed true, .late [(10, [1, 2, 3])]] := by
  intro env later calls
  constructor
  · decide +kernel
  · decide +kernel

/-! ## Delivered at most once -/

/-- A data frame whose number was delivered before arrives while the number is
still in a generation or above the floor. -/
def StillRemembered (log : List (Call × Reply)) (b : FecRecoveryBuffer) : Call → Prop
  | .observeData _ seq _ =>
      (∃ e ∈ log, seq ∈ delivered e) → Seen b seq ∨ ¬∃ floor ∈ b.seenFloor, seq ≤ floor
  | _ => True

instance (log : List (Call × Reply)) (b : FecRecoveryBuffer) :
    (c : Call) → Decidable (StillRemembered log b c)
  | .observeData _ seq _ => inferInstanceAs (Decidable
      ((∃ e ∈ log, seq ∈ delivered e) → Seen b seq ∨ ¬∃ floor ∈ b.seenFloor, seq ≤ floor))
  | .tryRecover _ _ _ | .takeLateRecoveries | .tick _ => inferInstanceAs (Decidable True)

theorem mem_accepted {s : UInt64} :
    s ∈ accepted (c, (step b c).2) ↔
      ∃ env plaintext, c = .observeData env s plaintext ∧
        (b.observeData env s plaintext).2 = true := by
  cases c with
  | observeData env seq plaintext =>
    cases hr : (b.observeData env seq plaintext).2 with
    | false =>
      simp only [step, hr, accepted, List.not_mem_nil, false_iff]
      rintro ⟨env', plaintext', heq, htrue⟩
      cases heq
      simp [hr] at htrue
    | true =>
      simp only [step, hr, accepted, List.mem_singleton]
      constructor
      · rintro rfl
        exact ⟨env, plaintext, rfl, hr⟩
      · rintro ⟨env', plaintext', heq, -⟩
        cases heq
        rfl
  | tryRecover env kind parity => simp [accepted]
  | takeLateRecoveries => simp [accepted]
  | tick now => simp [accepted]

/-- At one call: no delivered number is accepted again exactly when the call is
no copy of a forgotten one. -/
theorem not_accepted_iff (h : Remembers log b) (hreset : NoReset b c) :
    (∀ e ∈ log, ∀ s ∈ delivered e, s ∉ accepted (c, (step b c).2)) ↔ StillRemembered log b c := by
  constructor
  · intro hnot
    cases c with
    | observeData env seq plaintext =>
      rintro ⟨e, he, hs⟩
      left
      obtain ⟨-, -, hdeliver, -⟩ := observeData_spec h.ordered env plaintext hreset
      by_contra hseen
      exact hnot e he seq hs (mem_accepted.2 ⟨env, plaintext, rfl, hdeliver.2 hseen⟩)
    | tryRecover env kind parity => trivial
    | takeLateRecoveries => trivial
    | tick now => trivial
  · intro hstill e he s hs hacc
    obtain ⟨env, plaintext, rfl, htrue⟩ := mem_accepted.1 hacc
    obtain ⟨-, -, hdeliver, -⟩ := observeData_spec h.ordered env plaintext hreset
    have hnotSeen := hdeliver.1 htrue
    rcases hstill ⟨e, he, hs⟩ with hseen | habove
    · exact hnotSeen hseen
    · rcases h.delivered e he s hs with hseen | hfloor
      · exact hnotSeen hseen
      · exact habove hfloor

/-- Over every run without a restart, a delivered number is never delivered again
by `observeData` if and only if no copy of it arrives after the rotations have
forgotten it. -/
theorem accepted_once_iff (parityCount : UInt8) (now : Instant) (calls : List Call)
    (h : Mealy.Along step (fun _ => NoReset) [] (FecRecoveryBuffer.new parityCount now) calls) :
    ((Mealy.log step (FecRecoveryBuffer.new parityCount now) calls).Pairwise fun e e' =>
        ∀ s ∈ delivered e, s ∉ accepted e') ↔
      Mealy.Along step StillRemembered [] (FecRecoveryBuffer.new parityCount now) calls := by
  rw [Mealy.pairwise_log_iff, Mealy.along_iff]
  refine forall_congr' fun pre => forall_congr' fun c => forall_congr' fun post =>
    forall_congr' fun hsplit => ?_
  subst hsplit
  obtain ⟨hpre, hnext⟩ := Mealy.along_append.1 h
  exact not_accepted_iff (remembers_run hpre) hnext.1

/-- Frame 5 and a second copy of it one rotation later: every copy arrives while
remembered, so the second is refused. -/
theorem accepted_once_within_generations :
    let env : CallEnv := ⟨fun _ => 0, 0⟩
    let calls : List Call :=
      [.observeData env 5 [1], .tick 2000000000, .observeData env 6 [2], .observeData env 5 [1]]
    Mealy.Along step StillRemembered [] (FecRecoveryBuffer.new 1 0) calls ∧
      (Mealy.log step (FecRecoveryBuffer.new 1 0) calls).Pairwise fun e e' =>
        ∀ s ∈ delivered e, s ∉ accepted e' := by
  intro env calls
  have hstill : Mealy.Along step StillRemembered [] (FecRecoveryBuffer.new 1 0) calls := by
    decide +kernel
  exact ⟨hstill, (accepted_once_iff 1 0 calls (by decide +kernel)).2 hstill⟩

/-- Two quiet rotations after frame 5 was delivered, a second copy of it is
delivered again. -/
theorem forgotten_copy_delivered_again :
    let env : CallEnv := ⟨fun _ => 0, 0⟩
    let later : CallEnv := ⟨fun _ => 4000000000, 0⟩
    let calls : List Call :=
      [.observeData env 5 [1], .tick 2000000000, .tick 4000000000, .observeData later 5 [1]]
    Mealy.Along step (fun _ => NoReset) [] (FecRecoveryBuffer.new 1 0) calls ∧
      (Mealy.log step (FecRecoveryBuffer.new 1 0) calls).map Prod.snd =
        [.observed true, .gaveUp 0, .gaveUp 0, .observed true] := by
  intro env later calls
  constructor
  · decide +kernel
  · decide +kernel

end Mlvpn.Ports.FecRecoverySeen
