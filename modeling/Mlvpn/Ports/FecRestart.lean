import Mlvpn.Ports.FecRecoveryRepair

/-!
# A peer restart

A restarted peer counts from its initial number again.  The buffer takes an
arrival 2^24 or more below everything seen for such a restart and clears its
tracking half; the parking half it keeps.  When nothing was parked or waiting
at that moment, the new incarnation finds a clean buffer: its frames are
accepted on first arrival unless parity has already recovered them, and only
its own frames are ever recovered.

Below the gap the restart goes unnoticed, and numbers the old incarnation used
are still refused.

## Main results

* `seen_step` — the generations grow only by what a call brings or recovers.
* `restart_transparent` — the new incarnation after a noticed restart.
-/

namespace Mlvpn.Ports.FecRestart

open Protocol FecSend FecRecovery FecRecoveryBuffer FecRecoveryOps FecRecoverySeen
open Verified FecRecoveryFrame FecRecoverySound AssocMap
open FecRecoveryRepair (arrivals came)

variable {b b' : FecRecoveryBuffer}

/-! ## What enters the generations -/

variable {log : List (Call × Reply)} {seq : UInt64} (env : CallEnv) {frames : List Member}
  {groups : List (List Member)}

theorem seen_of_noteSeq {s : UInt64} (h : Seen (b.noteSeq seq) s) : Seen b s := by
  unfold noteSeq at h
  split at h
  · exact h
  · split at h
    · simp [Seen] at h
    · exact h

theorem seen_of_tracking (h : tracking b' = tracking b) {s : UInt64} (hs : Seen b' s) :
    Seen b s := by
  obtain ⟨-, -, h3, h4, -⟩ := Tracking.mk.inj h
  unfold Seen at hs ⊢
  rwa [h3, h4] at hs

theorem seen_deliverAll {env : CallEnv} {i : Nat} {s : UInt64}
    (h : Seen (deliverAll env i b frames) s) : s ∈ frames.map Prod.fst ∨ Seen b s := by
  refine deliverAll_induction
    (P := fun b' => ∀ s, Seen b' s → s ∈ frames.map Prod.fst ∨ Seen b s) env i
    (fun _ hs => Or.inr hs) (fun b' t t' m hm hb s hs => ?_) s h
  rcases seen_accept hs with rfl | hold
  · exact Or.inl (List.mem_map_of_mem hm)
  · exact hb s hold

/-- A recheck keeps the late recoveries and marks only what it adds to them. -/
theorem recheckParkedFor_marks (seq : UInt64) :
    b.lateRecoveries ⊆ (b.recheckParkedFor env seq).lateRecoveries ∧
      ∀ s, Seen (b.recheckParkedFor env seq) s →
        Seen b s ∨ s ∈ (b.recheckParkedFor env seq).lateRecoveries.map Prod.fst := by
  cases hkey : b.parkedBySeq.lookup seq with
  | none =>
    rw [recheckParkedFor_none hkey]
    exact ⟨List.Subset.refl _, fun _ => Or.inl⟩
  | some key =>
    cases hg : b.parked.lookup key with
    | none =>
      rw [recheckParkedFor_absent hkey hg]
      exact ⟨List.Subset.refl _, fun _ => Or.inl⟩
    | some g =>
      have hlate := released_lateRecoveries b seq key
      have hseen : ∀ s, Seen (released b seq key) s → Seen b s := fun s hs =>
        seen_of_tracking (released_tracking b seq key) hs
      rw [recheckParkedFor_eq hkey hg]
      cases (released b seq key).reconstruct g.shares with
      | AlreadyComplete =>
        exact ⟨by rw [hlate]; exact List.Subset.refl _, fun s hs => Or.inl (hseen s hs)⟩
      | Unrecoverable =>
        refine ⟨?_, fun s hs => Or.inl (hseen s hs)⟩
        change _ ⊆ (released b seq key).lateRecoveries
        rw [hlate]
        exact List.Subset.refl _
      | NeedMore missing =>
        refine ⟨?_, fun s hs => Or.inl (hseen s (seen_of_tracking (park_tracking ..) hs))⟩
        rw [park_lateRecoveries, hlate]
        exact List.Subset.refl _
      | Recovered frames =>
        have hdel : (deliverAll env 0 (released b seq key) frames).lateRecoveries =
            b.lateRecoveries :=
          (congrArg Parking.lateRecoveries (deliverAll_parking ..)).trans hlate
        refine ⟨?_, fun s hs => ?_⟩
        · change _ ⊆ (deliverAll env 0 (released b seq key) frames).lateRecoveries ++ frames
          rw [hdel]
          exact List.subset_append_left _ _
        · rcases seen_deliverAll (show Seen (deliverAll env 0 (released b seq key) frames) s
            from hs) with hnew | hold
          · right
            change s ∈ ((deliverAll env 0 (released b seq key) frames).lateRecoveries ++
              frames).map Prod.fst
            rw [List.map_append]
            exact List.mem_append.2 (Or.inr hnew)
          · exact Or.inl (hseen s hold)

/-- The numbers a call marks are its own, or it hands them out, or it leaves
them waiting; recoveries that waited before it are handed out or still wait. -/
structure Marks (b : FecRecoveryBuffer) (c : Call) : Prop where
  late : b.lateRecoveries ⊆ (step b c).2.recovered ++ (step b c).1.lateRecoveries
  seen : ∀ s, Seen (step b c).1 s → Seen b s ∨ s ∈ arrivals [c] ∨
    s ∈ ((step b c).2.recovered ++ (step b c).1.lateRecoveries).map Prod.fst

/-- A call that marks nothing and leaves the waiting recoveries alone. -/
theorem Marks.of_keeps {c : Call} {answer : Reply} (hstep : step b c = (b', answer))
    (hlate : b'.lateRecoveries = b.lateRecoveries) (hseen : ∀ s, Seen b' s → Seen b s) :
    Marks b c := by
  refine { late := ?_, seen := ?_ }
  · rw [hstep, hlate]
    exact List.subset_append_right _ _
  · rw [hstep]
    exact fun s hs => Or.inl (hseen s hs)

theorem marks_observeData (seq : UInt64) (plaintext : Bytes) :
    Marks b (.observeData env seq plaintext) := by
  by_cases hseen : Seen (b.noteSeq seq) seq
  · have hstep : step b (.observeData env seq plaintext) = (b.noteSeq seq, .observed false) := by
      simp only [step, observeData_seen hseen]
    exact Marks.of_keeps hstep (congrArg Parking.lateRecoveries (noteSeq_parking b seq))
      fun s hs => seen_of_noteSeq hs
  · have hlate : (stored b env seq plaintext).lateRecoveries = b.lateRecoveries :=
      (congrArg Parking.lateRecoveries (accept_parking _ _ (env.clock 1) seq plaintext)).trans
        (congrArg Parking.lateRecoveries (noteSeq_parking b seq))
    have hstored : ∀ s, Seen (stored b env seq plaintext) s → Seen b s ∨ s = seq := by
      intro s hs
      rcases seen_accept hs with rfl | hold
      · exact Or.inr rfl
      · exact Or.inl (seen_of_noteSeq hold)
    obtain ⟨hkeep, hmarks⟩ := recheckParkedFor_marks (b := stored b env seq plaintext)
      { env with clock := fun i => env.clock (i + 2) } seq
    have hstep : step b (.observeData env seq plaintext) = (_, .observed _) := rfl
    rw [observeData_fresh hseen] at hstep
    refine { late := ?_, seen := ?_ }
    · rw [hstep]
      change _ ⊆ _ ++ (if _ then _ else _ : FecRecoveryBuffer).lateRecoveries
      refine List.subset_append_of_subset_right _ ?_
      rw [← hlate]
      split
      · exact List.Subset.refl _
      · exact hkeep
    · rw [hstep]
      intro s hs
      change Seen (if _ then _ else _) s at hs
      split at hs
      · rcases hstored s hs with hold | rfl
        · exact Or.inl hold
        · exact Or.inr (Or.inl (by simp [arrivals]))
      · rename_i hparked
        rcases hmarks s hs with hs | hnew
        · rcases hstored s hs with hold | rfl
          · exact Or.inl hold
          · exact Or.inr (Or.inl (by simp [arrivals]))
        · right; right
          simpa [Reply.recovered, if_neg hparked] using hnew

theorem marks_tryRecover (kind : ParityKind) (parity : FecParityPayload) :
    Marks b (.tryRecover env kind parity) := by
  by_cases hwf : WellFormed parity
  · have hlate : (taken b parity).lateRecoveries = b.lateRecoveries :=
      (unpark_lateRecoveries _ _).trans (congrArg Parking.lateRecoveries (noteSeq_parking b _))
    have hseen : ∀ s, Seen (taken b parity) s → Seen b s := fun s hs =>
      seen_of_noteSeq (seen_of_tracking (unpark_tracking ..) hs)
    have hstep : step b (.tryRecover env kind parity) = (_, .outcome _) := rfl
    rw [tryRecover_eq hwf] at hstep
    cases hrec : (taken b parity).reconstruct (merged b kind parity) with
    | AlreadyComplete =>
      rw [hrec] at hstep
      exact Marks.of_keeps hstep hlate hseen
    | Unrecoverable =>
      rw [hrec] at hstep
      exact Marks.of_keeps hstep hlate hseen
    | NeedMore missing =>
      rw [hrec] at hstep
      exact Marks.of_keeps hstep ((park_lateRecoveries ..).trans hlate)
        fun s hs => hseen s (seen_of_tracking (park_tracking ..) hs)
    | Recovered frames =>
      rw [hrec] at hstep
      refine { late := ?_, seen := ?_ } <;> rw [hstep]
      · refine List.subset_append_of_subset_right _ ?_
        change _ ⊆ (deliverAll env 0 (taken b parity) frames).lateRecoveries
        rw [show (deliverAll env 0 (taken b parity) frames).lateRecoveries = _ from
          congrArg Parking.lateRecoveries (deliverAll_parking ..)]
        change _ ⊆ (taken b parity).lateRecoveries
        rw [hlate]
        exact List.Subset.refl _
      · intro s hs
        rcases seen_deliverAll hs with hnew | hold
        · right; right
          rw [List.map_append]
          exact List.mem_append.2 (Or.inl hnew)
        · exact Or.inl (hseen s hold)
  · have hstep : step b (.tryRecover env kind parity) = (b, .outcome .Unrecoverable) := by
      simp only [step, tryRecover_malformed hwf]
    exact Marks.of_keeps hstep rfl fun _ => id

theorem marks_tick (now : Instant) : Marks b (.tick now) := by
  refine Marks.of_keeps (rfl : step b (.tick now) = _) (tick_lateRecoveries b now) fun s hs => ?_
  rcases tick_tracking b now with h | h
  · exact seen_of_tracking (b := expire b now) h hs
  · exact seen_rotateSeen now (seen_of_tracking h hs)

/-- One call, whatever the buffer. -/
theorem marks_step (b : FecRecoveryBuffer) (c : Call) : Marks b c := by
  cases c with
  | observeData env seq plaintext => exact marks_observeData env seq plaintext
  | tryRecover env kind parity => exact marks_tryRecover env kind parity
  | takeLateRecoveries =>
    exact { late := List.subset_append_left _ _, seen := fun s hs => Or.inl hs }
  | tick now => exact marks_tick now

/-! ## Runs from a clean buffer -/

/-- `s` was handed out as recovered, or waits in the buffer to be. -/
def Recovered (log : List (Call × Reply)) (b : FecRecoveryBuffer) (s : UInt64) : Prop :=
  s ∈ (log.flatMap (·.2.recovered) ++ b.lateRecoveries).map Prod.fst

/-- Every number in the generations came in as data or was recovered. -/
def Explained (log : List (Call × Reply)) (b : FecRecoveryBuffer) : Prop :=
  ∀ s, Seen b s → s ∈ came log ∨ Recovered log b s

theorem explained_step (h : Explained log b) (c : Call) :
    Explained (log ++ [(c, (step b c).2)]) (step b c).1 := by
  obtain ⟨hlate, hmarks⟩ := marks_step b c
  have hgrows : ∀ s, s ∈ ((step b c).2.recovered ++ (step b c).1.lateRecoveries).map Prod.fst →
      Recovered (log ++ [(c, (step b c).2)]) (step b c).1 s := by
    intro s hs
    unfold Recovered
    rw [List.flatMap_append, List.append_assoc, List.map_append, List.flatMap_singleton]
    exact List.mem_append.2 (Or.inr hs)
  intro s hs
  simp only [List.map_append, arrivals, List.filterMap_append] at *
  rcases hmarks s hs with hold | harrived | hrecovered
  · rcases h s hold with harrived | hrecovered
    · exact Or.inl (List.mem_append.2 (Or.inl harrived))
    · -- Handed out before, or waiting before and then handed out or waiting still.
      right
      unfold Recovered at hrecovered
      rw [List.map_append] at hrecovered
      rcases List.mem_append.1 hrecovered with hout | hwait
      · unfold Recovered
        rw [List.flatMap_append, List.append_assoc, List.map_append]
        exact List.mem_append.2 (Or.inl hout)
      · exact hgrows s (by simpa using List.map_subset Prod.fst hlate hwait)
  · exact Or.inl (List.mem_append.2 (Or.inr harrived))
  · exact Or.inr (hgrows s (by simpa using hrecovered))

theorem explained_run (h : Explained log b) (calls : List Call) :
    Explained (log ++ Mealy.log step b calls) (Mealy.run step b calls) := by
  refine Mealy.invariant_along (I := Explained) (G := fun _ _ _ => True)
    (fun _ _ c hb _ => explained_step hb c) h ?_
  exact Mealy.along_of_forall (P := fun _ => True) (fun _ _ _ _ => trivial) fun _ _ => trivial

/-- A frame whose number is in neither generation is delivered. -/
theorem observed_true_or_seen (b : FecRecoveryBuffer) (env : CallEnv) (seq : UInt64)
    (plaintext : Bytes) :
    (step b (.observeData env seq plaintext)).2 = .observed true ∨ Seen b seq := by
  by_cases hseen : Seen (b.noteSeq seq) seq
  · exact Or.inr (seen_of_noteSeq hseen)
  · left
    simp only [step, observeData_fresh hseen]

/-! ## The restart -/

/-- The state note_seq leaves behind when it takes a number for a restart. -/
theorem noteSeq_of_restart (h : ¬NoRestart b seq) :
    b.noteSeq seq =
      { b with payloads := ∅, payloadOrder := [], seenCurrent := ∅, seenPrevious := ∅,
               seenFloor := none, seenRotationHigh := none, highestSeq := seq } := by
  have hnat : seq.toNat + 2 ^ 24 ≤ b.highestSeq.toNat := not_lt.1 h
  have hle : seq ≤ b.highestSeq := UInt64.le_iff_toNat_le.2 (by omega)
  have hgap : b.highestSeq - seq ≥ SEQ_RESET_GAP := by
    have hsub := UInt64.toNat_sub_of_le _ _ hle
    have hval : SEQ_RESET_GAP.toNat = 2 ^ 24 := by decide
    exact UInt64.le_iff_toNat_le.2 (by omega)
  unfold noteSeq
  rw [if_neg (UInt64.not_lt.2 hle), if_pos hgap]

theorem noteSeq_noteSeq (b : FecRecoveryBuffer) (seq : UInt64) :
    (b.noteSeq seq).noteSeq seq = b.noteSeq seq := by
  have hself : ∀ b' : FecRecoveryBuffer, b'.highestSeq = seq → b'.noteSeq seq = b' := by
    rintro b' rfl
    have hzero : b'.highestSeq - b'.highestSeq = 0 := by simp
    unfold noteSeq
    rw [if_neg (UInt64.lt_irrefl _), if_neg (by rw [hzero]; decide)]
  by_cases hgt : seq > b.highestSeq
  · exact hself _ (by simp only [noteSeq, if_pos hgt])
  · by_cases hgap : b.highestSeq - seq ≥ SEQ_RESET_GAP
    · exact hself _ (by simp only [noteSeq, if_neg hgt, if_pos hgap])
    · have hsame : b.noteSeq seq = b := by simp only [noteSeq, if_neg hgt, if_neg hgap]
      rw [hsame, hsame]

theorem taken_noteSeq (b : FecRecoveryBuffer) (parity : FecParityPayload) :
    taken (b.noteSeq (maxSeq parity)) parity = taken b parity := by
  unfold taken
  rw [noteSeq_noteSeq]

theorem merged_noteSeq (b : FecRecoveryBuffer) (seq : UInt64) (kind : ParityKind)
    (parity : FecParityPayload) : merged (b.noteSeq seq) kind parity = merged b kind parity := by
  have hparked : (b.noteSeq seq).parked = b.parked :=
    congrArg Parking.parked (noteSeq_parking b seq)
  unfold merged heldShares
  rw [hparked]

/-- Nothing of an earlier incarnation is left in the tracking half. -/
structure Cleared (b : FecRecoveryBuffer) : Prop where
  payloads : b.payloads = ∅
  seen : ∀ s, ¬Seen b s

theorem cleared_noteSeq (h : ¬NoRestart b seq) : Cleared (b.noteSeq seq) := by
  rw [noteSeq_of_restart h]
  exact { payloads := rfl, seen := fun s => by simp [Seen] }

theorem wellFormed_of_covers {kind : ParityKind} {ms : List Member} {parity : FecParityPayload}
    (hcov : Covers kind ms parity) (hms : 0 < ms.length) : WellFormed parity := by
  constructor
  · rw [hcov.seqs, hcov.lens, List.length_map, List.length_map]
  · rw [hcov.seqs]
    intro hnil
    rw [List.map_eq_nil_iff.1 hnil] at hms
    exact absurd hms (by simp)

/-- A call that is read as a restart acts as if on a cleared buffer. -/
theorem step_of_restart (hstream : Stream frames groups) {c : Call} (hc : Carried frames groups c)
    (h : ¬NoReset b c) : ∃ b', Cleared b' ∧ parking b' = parking b ∧ step b' c = step b c := by
  cases c with
  | observeData env seq plaintext =>
    refine ⟨b.noteSeq seq, cleared_noteSeq h, noteSeq_parking b seq, ?_⟩
    simp only [step, observeData, noteSeq_noteSeq]
  | tryRecover env kind parity =>
    obtain ⟨ms, hms, hcov⟩ := hc
    have hwf := wellFormed_of_covers hcov (hstream.size ms hms).1
    refine ⟨b.noteSeq (maxSeq parity), cleared_noteSeq h, noteSeq_parking b _, ?_⟩
    simp only [step, tryRecover_eq hwf, taken_noteSeq, merged_noteSeq]
  | takeLateRecoveries => exact absurd trivial h
  | tick now => exact absurd trivial h

/-- A cleared buffer with nothing parked or waiting fits any stream. -/
theorem Cleared.sound (h : Cleared b) (hparked : b.parked.entries = [])
    (hlate : b.lateRecoveries = []) :
    Sound frames groups b where
  payloads := fun seq t bytes hlook => by simp [h.payloads] at hlook
  parked := fun key g hlook => by
    have hempty : b.parked = ∅ := AList.ext hparked
    simp [hempty] at hlook
  late := by simp [hlate]

/-- Two buffers that answer the first call alike, with the same recoveries
waiting, cannot be told apart afterwards. -/
theorem runs_agree {first : Call} (h : step b' first = step b first)
    (hlate : b'.lateRecoveries = b.lateRecoveries) {rest pre post : List Call} {c : Call}
    (hsplit : first :: rest = pre ++ c :: post) :
    step (Mealy.run step b' pre) c = step (Mealy.run step b pre) c ∧
      (∀ s, Recovered (Mealy.log step b' pre) (Mealy.run step b' pre) s →
        Recovered (Mealy.log step b pre) (Mealy.run step b pre) s) := by
  cases pre with
  | nil =>
    obtain ⟨rfl, -⟩ := List.cons.inj hsplit
    refine ⟨h, fun s hs => ?_⟩
    simpa only [Recovered, Mealy.log_nil, Mealy.run_nil, hlate] using hs
  | cons c' pre =>
    obtain ⟨rfl, -⟩ := List.cons.inj hsplit
    simp only [Mealy.run_cons, Mealy.log_cons, h]
    exact ⟨trivial, fun _ => id⟩

/-- What the new incarnation, which sends `frames`, expects of a buffer that
gets the calls `calls`. -/
structure Transparent (frames : List Frame) (b : FecRecoveryBuffer) (calls : List Call) :
    Prop where
  delivered : ∀ pre env seq plaintext post,
    calls = pre ++ .observeData env seq plaintext :: post → seq ∉ arrivals pre →
      (step (Mealy.run step b pre) (.observeData env seq plaintext)).2 = .observed true ∨
        Recovered (Mealy.log step b pre) (Mealy.run step b pre) seq
  recovered : ∀ r ∈ Mealy.log step b calls,
    ∀ m ∈ r.2.recovered, ∃ f ∈ frames, (f.seq, f.plaintext) = m

/-- A restart that is noticed while no group is parked and no recovery waits is
transparent: every frame of the new incarnation is delivered on its first
arrival unless parity recovered it before, and every recovery is a frame the
new incarnation sent.  What the buffer went through before is arbitrary. -/
theorem restart_transparent (groupSize parityCount : UInt8) (frames : List Frame)
    (receiverParityCount : UInt8) (now : Instant) (old : List Call) (first : Call)
    (rest : List Call)
    (hseqs : (frames.map Frame.seq).Pairwise (· < ·))
    (hlens : ∀ f ∈ frames, f.plaintext.length ≤ 65535)
    (hnew : ∀ c ∈ first :: rest, FromSender groupSize parityCount frames c)
    (hrestart :
      ¬NoReset (Mealy.run step (FecRecoveryBuffer.new receiverParityCount now) old) first)
    (hparked :
      (Mealy.run step (FecRecoveryBuffer.new receiverParityCount now) old).parked.entries = [])
    (hlate :
      (Mealy.run step (FecRecoveryBuffer.new receiverParityCount now) old).lateRecoveries = []) :
    Transparent frames (Mealy.run step (FecRecoveryBuffer.new receiverParityCount now) old)
      (first :: rest) := by
  generalize Mealy.run step (FecRecoveryBuffer.new receiverParityCount now) old = b at *
  obtain ⟨groups, hstream, hgroups⟩ := exists_stream hseqs hlens
  have hcarried : ∀ c ∈ first :: rest, Carried (frames.map Frame.member) groups c :=
    fun c hc => carried_of_fromSender hstream hgroups (hnew c hc)
  obtain ⟨b', hclear, hpark, hstep⟩ :=
    step_of_restart hstream (hcarried first (by simp)) hrestart
  have hlate' : b'.lateRecoveries = b.lateRecoveries := congrArg Parking.lateRecoveries hpark
  have hparked' : b'.parked = b.parked := congrArg Parking.parked hpark
  refine { delivered := ?_, recovered := ?_ }
  · intro pre env seq plaintext post hsplit hfirst
    obtain ⟨hsame, hrec⟩ := runs_agree hstep hlate' hsplit
    have hempty : Explained [] b' := fun s hs => absurd hs (hclear.seen s)
    have hexplained := explained_run hempty pre
    rw [← hsame]
    rcases observed_true_or_seen (Mealy.run step b' pre) env seq plaintext with htrue | hseen
    · exact Or.inl htrue
    · rcases hexplained seq hseen with harrived | hrecovered
      · rw [List.nil_append, came, Mealy.map_fst_log] at harrived
        exact absurd harrived hfirst
      · exact Or.inr (hrec seq hrecovered)
  · intro r hr m hm
    have hsound := (hclear.sound (by rw [hparked', hparked]) (hlate'.trans hlate)).run hstream
      hcarried
    have hr' : r ∈ Mealy.log step b' (first :: rest) := by
      simpa only [Mealy.log_cons, hstep] using hr
    exact List.mem_map.1 (hsound.2 r hr' hm)

/-- The restart of the source's own test: 3 arrives below 2^40, its group's `P`
share recovers 4, and the late copy of 4 is a duplicate. -/
theorem restart_transparent_near_zero :
    let frames : List Frame := [⟨3, [1, 2, 3], 0⟩, ⟨4, [4, 5], 1⟩]
    let env : CallEnv := ⟨fun _ => 0, 0⟩
    let old : List Call := [.observeData env 1099511627776 [9]]
    let calls : List Call :=
      [.observeData env 3 [1, 2, 3], .tryRecover env .P ⟨[3, 4], [3, 2], [5, 7, 3]⟩,
        .observeData env 4 [4, 5]]
    Transparent frames (Mealy.run step (FecRecoveryBuffer.new 1 0) old) calls ∧
      (Mealy.log step (Mealy.run step (FecRecoveryBuffer.new 1 0) old) calls).map Prod.snd =
        [.observed true, .outcome (.Recovered [(4, [4, 5])]), .observed false] := by
  intro frames env old calls
  have hshare : (⟨[3, 4], [3, 2], [5, 7, 3]⟩ : FecParityPayload) ∈
      (sendAll (FecSender.new 2 1) frames).map FecGroup.p := by decide +kernel
  refine ⟨restart_transparent 2 1 frames 1 0 old _ _ (by decide) (by decide) ?_
    (by decide +kernel) (by decide +kernel) (by decide +kernel), by decide +kernel⟩
  intro c hc
  simp only [List.mem_cons, List.not_mem_nil, or_false] at hc
  rcases hc with rfl | rfl | rfl
  · exact ⟨⟨3, [1, 2, 3], 0⟩, by decide, rfl, rfl⟩
  · obtain ⟨g, hg, hp⟩ := List.mem_map.1 hshare
    exact ⟨g, hg, g.p, rfl, by rw [hp]; rfl⟩
  · exact ⟨⟨4, [4, 5], 1⟩, by decide, rfl, rfl⟩

/-- Below the gap a restart goes unnoticed: number 0 of the new incarnation is
refused as a copy of the old one's, and nothing recovered it. -/
theorem unnoticed_restart_refuses :
    let frames : List Frame := [⟨0, [2], 0⟩]
    let env : CallEnv := ⟨fun _ => 0, 0⟩
    let b := Mealy.run step (FecRecoveryBuffer.new 1 0) [.observeData env 0 [1]]
    (∀ c ∈ [Call.observeData env 0 [2]], FromSender 2 1 frames c) ∧
      NoReset b (.observeData env 0 [2]) ∧ b.parked.entries = [] ∧ b.lateRecoveries = [] ∧
      Mealy.log step b [.observeData env 0 [2]] =
        [(.observeData env 0 [2], .observed false)] := by
  intro frames env b
  refine ⟨?_, by decide +kernel, by decide +kernel, by decide +kernel, ?_⟩
  · intro c hc
    obtain rfl := List.mem_singleton.1 hc
    exact ⟨⟨0, [2], 0⟩, by decide, rfl, rfl⟩
  · have hreply : (step b (.observeData env 0 [2])).2 = .observed false := by decide +kernel
    simp only [Mealy.log_cons, Mealy.log_nil, hreply]

/-- A group parked before a restart outlives it: the new incarnation's frame 11
completes the old share, and frame 10 is made up from both. -/
theorem stale_share_fabricates : let env : CallEnv := ⟨fun _ => 0, 0⟩
    let b := Mealy.run step (FecRecoveryBuffer.new 2 0)
      [.observeData env 12 [7, 8, 9, 10],
        .tryRecover env .P ⟨[10, 11, 12], [3, 2, 4], [2, 15, 10, 10]⟩,
        .observeData env 1099511627776 [9]]
    ¬NoReset b (.observeData env 12 [0]) ∧
      (Mealy.log step b [.observeData env 12 [0], .observeData env 11 [0],
        .takeLateRecoveries]).map Prod.snd =
        [.observed true, .observed true, .late [(10, [2, 15, 10])]] := by
  intro env b
  constructor
  · decide +kernel
  · decide +kernel

end Mlvpn.Ports.FecRestart
