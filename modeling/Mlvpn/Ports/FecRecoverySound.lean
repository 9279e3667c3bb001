import Mlvpn.Ports.FecReconstruct
import Mlvpn.Ports.FecRecoveryOps

/-!
# Recovery never fabricates

A sender's frames, cut into groups, form a *stream*.  A buffer fed only frames
and shares of one stream keeps the invariant `Sound`: its plaintexts, its late
recoveries and the shares of its parked groups all belong to the stream.  Every
recovery is then a member of the stream, whatever is lost, repeated, reordered,
evicted or forgotten on the way.

## Main results

* `Sound.step` — one call keeps the invariant and returns only sent frames.
* `recovered_mem_sent` — the same over any run, from the sender's `accumulate`
  through the parity wire format to the receiver's answers.
-/

namespace Mlvpn.Ports.FecRecoverySound

open Protocol FecSend FecRecovery FecRecoveryBuffer FecReconstruct FecRecoveryOps
open Verified AssocMap

/-! ## Streams -/

/-- Frames in sending order, and the consecutive groups they were cut into. -/
structure Stream (frames : List Member) (groups : List (List Member)) : Prop where
  cut : groups.flatten <+: frames
  increasing : (frames.map Prod.fst).Pairwise (· < ·)
  lens : ∀ m ∈ frames, m.2.length ≤ 65535
  size : ∀ ms ∈ groups, 0 < ms.length ∧ ms.length ≤ 255

namespace Stream

variable {frames : List Member} {groups : List (List Member)} {ms : List Member}

section

variable (h : Stream frames groups)
include h

theorem subset (hms : ms ∈ groups) : ms ⊆ frames := by
  intro m hm
  exact h.cut.subset (List.mem_flatten.2 ⟨ms, hms, hm⟩)

theorem wireGroup (hms : ms ∈ groups) :
    WireGroup ms where
  size := (h.size ms hms).2
  lens := fun m hm => h.lens m (h.subset hms hm)

theorem nodup : (frames.map Prod.fst).Nodup :=
  h.increasing.imp fun hlt => UInt64.ne_of_lt hlt

/-- A sequence number names one frame. -/
theorem eq_of_seq_eq {m m' : Member} (hm : m ∈ frames)
    (hm' : m' ∈ frames) (hseq : m.1 = m'.1) : m = m' :=
  List.inj_on_of_nodup_map h.nodup hm hm' hseq

/-- Two groups that share a sequence number are one group. -/
theorem group_unique {ms' : List Member} (hms : ms ∈ groups) (hms' : ms' ∈ groups) {seq : UInt64}
    (hseq : seq ∈ ms.map Prod.fst) (hseq' : seq ∈ ms'.map Prod.fst) : ms = ms' := by
  by_contra hne
  have hflat : (groups.flatten.map Prod.fst).Nodup :=
    h.nodup.sublist (h.cut.sublist.map Prod.fst)
  rw [List.map_flatten, List.nodup_flatten, List.pairwise_map] at hflat
  have : Std.Symm fun a b : List Member => (a.map Prod.fst).Disjoint (b.map Prod.fst) :=
    ⟨fun _ _ hab => List.Disjoint.symm hab⟩
  have hdisjoint := hflat.2.forall hms hms' hne
  exact hdisjoint hseq hseq'

end

end Stream

/-! ## The invariant -/

/-- The shares parked under `key` are shares of the group that starts there. -/
def SharesAt (groups : List (List Member)) (key : UInt64) (shares : ShareSet) : Prop :=
  ∃ ms ∈ groups, (ms.map Prod.fst).headD 0 = key ∧ SharesOf ms shares

/-- Everything the buffer holds belongs to the stream. -/
structure Sound (frames : List Member) (groups : List (List Member)) (b : FecRecoveryBuffer) :
    Prop where
  payloads : ∀ seq t bytes, b.payloads.lookup seq = some (t, bytes) → (seq, bytes) ∈ frames
  parked : ∀ key g, b.parked.lookup key = some g → SharesAt groups key g.shares
  late : b.lateRecoveries ⊆ frames

/-- The calls a stream can cause: its frames, its shares, and calls that carry
nothing. -/
def Carried (frames : List Member) (groups : List (List Member)) : Call → Prop
  | .observeData _ seq plaintext => (seq, plaintext) ∈ frames
  | .tryRecover _ kind parity => ∃ ms ∈ groups, Covers kind ms parity
  | .takeLateRecoveries => True
  | .tick _ => True

section

variable {frames : List Member} {groups : List (List Member)} {b b' : FecRecoveryBuffer}

theorem sound_new (parityCount : UInt8) (now : Instant) :
    Sound frames groups (FecRecoveryBuffer.new parityCount now) where
  payloads := fun seq t bytes h => by simp [FecRecoveryBuffer.new, withParams] at h
  parked := fun key g h => by simp [FecRecoveryBuffer.new, withParams] at h
  late := by simp [FecRecoveryBuffer.new, withParams]

section

variable (h : Sound frames groups b)
include h

/-- Losing plaintexts and parked groups is harmless. -/
theorem Sound.of_shrinks (hp : Shrinks b.payloads b'.payloads)
    (hg : Shrinks b.parked b'.parked) (hl : b'.lateRecoveries ⊆ b.lateRecoveries) :
    Sound frames groups b' where
  payloads := fun seq t bytes hlook => h.payloads seq t bytes (hp _ _ hlook)
  parked := fun key g hlook => h.parked key g (hg _ _ hlook)
  late := List.Subset.trans hl h.late

theorem Sound.noteSeq (seq : UInt64) : Sound frames groups (b.noteSeq seq) := by
  have hpark := noteSeq_parking b seq
  have hparked : (b.noteSeq seq).parked = b.parked := congrArg Parking.parked hpark
  have hlate : (b.noteSeq seq).lateRecoveries = b.lateRecoveries :=
    congrArg Parking.lateRecoveries hpark
  apply h.of_shrinks (noteSeq_payloads_shrinks b seq)
  · rw [hparked]
    exact Shrinks.refl _
  · rw [hlate]
    exact List.Subset.refl _

theorem Sound.accept {seq : UInt64} {plaintext : Bytes} (hm : (seq, plaintext) ∈ frames)
    (t t' : Instant) : Sound frames groups (b.accept t t' seq plaintext) := by
  have hpark := accept_parking b t t' seq plaintext
  refine { payloads := ?_, parked := ?_, late := ?_ }
  · intro s at' bytes hlook
    rcases lookup_accept hlook with ⟨rfl, hv⟩ | hold
    · obtain ⟨-, rfl⟩ := Prod.mk.inj hv
      exact hm
    · exact h.payloads s at' bytes hold
  · rw [show (b.accept t t' seq plaintext).parked = b.parked from congrArg Parking.parked hpark]
    exact h.parked
  · rw [show (b.accept t t' seq plaintext).lateRecoveries = b.lateRecoveries from
      congrArg Parking.lateRecoveries hpark]
    exact h.late

theorem Sound.deliverAll {recovered : List Member} (hsub : recovered ⊆ frames) (env : CallEnv)
    (i : Nat) : Sound frames groups (deliverAll env i b recovered) :=
  deliverAll_induction env i h fun _ t t' _ hm hb => hb.accept (hsub hm) t t'

theorem Sound.park {key : UInt64} {shares : ShareSet}
    (hshares : SharesAt groups key shares) (now : Instant) (tie : Nat) (missing : List UInt64) :
    Sound frames groups (b.park now tie key shares missing) := by
  have htrack := park_tracking b now tie key shares missing
  refine { payloads := ?_, parked := ?_, late := ?_ }
  · rw [show (b.park now tie key shares missing).payloads = b.payloads from
      congrArg Tracking.payloads htrack]
    exact h.payloads
  · intro k g hlook
    rcases lookup_park hlook with ⟨rfl, rfl⟩ | hold
    · exact hshares
    · exact h.parked k g hold
  · rw [park_lateRecoveries]
    exact h.late

end

variable {ms : List Member}

theorem Sound.retains (hstream : Stream frames groups) (h : Sound frames groups b)
    (hms : ms ∈ groups) : Retains b ms := by
  intro m hm t bytes hlook
  have heq := hstream.eq_of_seq_eq (h.payloads m.1 t bytes hlook) (hstream.subset hms hm) rfl
  exact congrArg Prod.snd heq

/-- A recovery from shares of the stream returns frames of the stream. -/
theorem Sound.recovered_subset (hstream : Stream frames groups) (h : Sound frames groups b)
    {key : UInt64} {shares : ShareSet} (hshares : SharesAt groups key shares)
    {recovered : List Member} (hrec : b.reconstruct shares = .Recovered recovered) :
    recovered ⊆ frames := by
  obtain ⟨ms, hms, -, hof⟩ := hshares
  have hsub := FecReconstruct.recovered_subset (hstream.wireGroup hms) hof
    (h.retains hstream hms) hrec
  exact List.Subset.trans hsub (hstream.subset hms)

/-! ## One call -/

theorem Sound.unpark (h : Sound frames groups b) (key : UInt64) :
    Sound frames groups (b.unpark key).1 := by
  apply h.of_shrinks
  · rw [show (b.unpark key).1.payloads = b.payloads from
      congrArg Tracking.payloads (unpark_tracking b key)]
    exact Shrinks.refl _
  · exact unpark_parked_shrinks b key
  · rw [unpark_lateRecoveries]
    exact List.Subset.refl _

theorem Sound.released (h : Sound frames groups b) (seq key : UInt64) :
    Sound frames groups (released b seq key) :=
  Sound.unpark (b := { b with parkedBySeq := b.parkedBySeq.erase seq })
    { payloads := h.payloads, parked := h.parked, late := h.late } key

/-- A recheck files a recovery under the late ones, or parks the shares again. -/
theorem Sound.recheckParkedFor (hstream : Stream frames groups) (h : Sound frames groups b)
    (env : CallEnv) (seq : UInt64) : Sound frames groups (b.recheckParkedFor env seq) := by
  cases hkey : b.parkedBySeq.lookup seq with
  | none => rwa [recheckParkedFor_none hkey]
  | some key =>
    cases hg : b.parked.lookup key with
    | none =>
      rw [recheckParkedFor_absent hkey hg]
      exact { payloads := h.payloads, parked := h.parked, late := h.late }
    | some g =>
      have hshares := h.parked key g hg
      have hrel := h.released seq key
      rw [recheckParkedFor_eq hkey hg]
      cases hrec : (FecRecoveryOps.released b seq key).reconstruct g.shares with
      | AlreadyComplete => exact hrel
      | Unrecoverable =>
        exact { payloads := hrel.payloads, parked := hrel.parked, late := hrel.late }
      | NeedMore missing => exact hrel.park hshares _ _ _
      | Recovered recovered =>
        have hsub := hrel.recovered_subset hstream hshares hrec
        have hdel := hrel.deliverAll hsub env 0
        exact
          { payloads := hdel.payloads
            parked := hdel.parked
            late := List.append_subset.2 ⟨hdel.late, hsub⟩ }

theorem Sound.observeData (hstream : Stream frames groups) (h : Sound frames groups b)
    (env : CallEnv) {seq : UInt64} {plaintext : Bytes} (hm : (seq, plaintext) ∈ frames) :
    Sound frames groups (b.observeData env seq plaintext).1 := by
  by_cases hseen : Seen (b.noteSeq seq) seq
  · rw [observeData_seen hseen]
    exact h.noteSeq seq
  · have hstored : Sound frames groups (stored b env seq plaintext) :=
      (h.noteSeq seq).accept hm _ _
    rw [observeData_fresh hseen]
    split
    · exact hstored
    · exact hstored.recheckParkedFor hstream _ seq

variable {kind : ParityKind} {parity : FecParityPayload}

/-- A share joins the shares of its group, whichever were held before. -/
theorem sharesOf_add {held : ShareSet} (hp : ∀ p, held.p = some p → Covers .P ms p)
    (hq : ∀ q, held.q = some q → Covers .Q ms q) (hc : Covers kind ms parity) :
    SharesOf ms (ShareSet.add held kind parity) := by
  cases kind with
  | P =>
    exact
      { p := fun p h => by
          simp only [ShareSet.add, Option.some.injEq] at h
          exact h ▸ hc
        q := hq
        any := Or.inl rfl }
  | Q =>
    exact
      { p := hp
        q := fun q h => by
          simp only [ShareSet.add, Option.some.injEq] at h
          exact h ▸ hc
        any := Or.inr rfl }

/-- Groups of one stream are keyed by their first member, so a share only ever
meets shares of its own group. -/
theorem Sound.merged (hstream : Stream frames groups) (h : Sound frames groups b)
    (hms : ms ∈ groups) (hc : Covers kind ms parity) :
    SharesAt groups (parity.memberSeqs.headD 0) (merged b kind parity) := by
  refine ⟨ms, hms, by rw [hc.seqs], ?_⟩
  unfold FecRecoveryOps.merged heldShares
  cases hg : b.parked.lookup (parity.memberSeqs.headD 0) with
  | none => exact sharesOf_add (by simp) (by simp) hc
  | some g =>
    obtain ⟨ms', hms', hkey, hof⟩ := h.parked _ g hg
    have hhead : ∀ l ∈ groups, (l.map Prod.fst).headD 0 ∈ l.map Prod.fst := by
      intro l hl
      have hpos := (hstream.size l hl).1
      cases l with
      | nil => simp at hpos
      | cons m l => simp
    have hsame : ms' = ms := by
      apply hstream.group_unique hms' hms (hhead ms' hms')
      rw [hkey, hc.seqs]
      exact hhead ms hms
    subst hsame
    exact sharesOf_add hof.p hof.q hc

theorem Sound.tryRecover (hstream : Stream frames groups) (h : Sound frames groups b)
    (env : CallEnv) (hms : ms ∈ groups) (hc : Covers kind ms parity) :
    Sound frames groups (b.tryRecover env kind parity).1 ∧
      (Reply.outcome (b.tryRecover env kind parity).2).recovered ⊆ frames := by
  by_cases hwf : WellFormed parity
  · have hshares := h.merged hstream hms hc
    have htaken : Sound frames groups (taken b parity) := (h.noteSeq _).unpark _
    rw [tryRecover_eq hwf]
    cases hrec : (taken b parity).reconstruct (FecRecoveryOps.merged b kind parity) with
    | AlreadyComplete => exact ⟨htaken, by simp [Reply.recovered]⟩
    | Unrecoverable => exact ⟨htaken, by simp [Reply.recovered]⟩
    | NeedMore missing => exact ⟨htaken.park hshares _ _ _, by simp [Reply.recovered]⟩
    | Recovered recovered =>
      have hsub := htaken.recovered_subset hstream hshares hrec
      exact ⟨htaken.deliverAll hsub env 0, hsub⟩
  · rw [tryRecover_malformed hwf]
    exact ⟨h, by simp [Reply.recovered]⟩

theorem Sound.tick (h : Sound frames groups b) (now : Instant) :
    Sound frames groups (b.tick now).1 := by
  apply h.of_shrinks (tick_payloads_shrinks b now) (tick_parked_shrinks b now)
  rw [tick_lateRecoveries]
  exact List.Subset.refl _

/-- One call keeps the invariant and hands out only frames of the stream. -/
theorem Sound.step (hstream : Stream frames groups) (h : Sound frames groups b) {c : Call}
    (hc : Carried frames groups c) :
    Sound frames groups (step b c).1 ∧ (step b c).2.recovered ⊆ frames := by
  cases c with
  | observeData env seq plaintext =>
    exact ⟨h.observeData hstream env hc, by simp [FecRecovery.step, Reply.recovered]⟩
  | tryRecover env kind parity =>
    obtain ⟨ms, hms, hcov⟩ := hc
    exact h.tryRecover hstream env hms hcov
  | takeLateRecoveries =>
    exact ⟨{ payloads := h.payloads, parked := h.parked, late := by simp [FecRecovery.step,
      takeLateRecoveries] }, h.late⟩
  | tick now => exact ⟨h.tick now, by simp [FecRecovery.step, Reply.recovered]⟩

/-- Over a run: the invariant holds throughout, so every answer is sound. -/
theorem Sound.run (hstream : Stream frames groups) (h : Sound frames groups b)
    {calls : List Call} (hcalls : ∀ c ∈ calls, Carried frames groups c) :
    Sound frames groups (Mealy.run FecRecovery.step b calls) ∧
      ∀ r ∈ Mealy.log FecRecovery.step b calls, r.2.recovered ⊆ frames :=
  Mealy.invariant_log (P := fun _ (answer : Reply) => answer.recovered ⊆ frames)
    (fun _ _ hb hc => hb.step hstream hc) h hcalls

end

/-! ## From the sender to the receiver -/

/-- A call that the frames `frames` and the parity shares their sender produced
can cause at the receiver: a data frame as sent, or a share that went through
the wire format. -/
def FromSender (groupSize parityCount : UInt8) (frames : List Frame) : Call → Prop
  | .observeData _ seq plaintext => ∃ f ∈ frames, f.seq = seq ∧ f.plaintext = plaintext
  | .tryRecover _ kind parity =>
      ∃ g ∈ sendAll (FecSender.new groupSize parityCount) frames,
        ∃ share, g.share kind = some share ∧ FecParityPayload.decode share.encode = .ok parity
  | .takeLateRecoveries => True
  | .tick _ => True

theorem fits_of_covers {k : ParityKind} {ms : List Member} {p : FecParityPayload}
    (hms : WireGroup ms) (h : Covers k ms p) : Fits p where
  members := by
    rw [h.seqs, List.length_map]
    exact hms.size
  lens := by rw [h.seqs, h.lens, List.length_map, List.length_map]
  parity := by
    rw [h.sums.length]
    exact width_le hms.lens

/-- The frames of a sender form a stream whose groups its shares cover. -/
theorem exists_stream {groupSize parityCount : UInt8} {frames : List Frame}
    (hseqs : (frames.map Frame.seq).Pairwise (· < ·))
    (hlens : ∀ f ∈ frames, f.plaintext.length ≤ 65535) :
    ∃ groups, Stream (frames.map Frame.member) groups ∧
      ∀ g ∈ sendAll (FecSender.new groupSize parityCount) frames,
        ∃ ms ∈ groups, Completes (FecSender.new groupSize parityCount) ms g := by
  obtain ⟨groups, hcut, hall⟩ := sendAll_completes (holds_new groupSize parityCount) frames
  obtain ⟨hleft, hright⟩ := completes_partners hall
  refine ⟨groups, { cut := by simpa using hcut, increasing := ?_, lens := ?_, size := ?_ }, hright⟩
  · simpa [List.map_map, Function.comp_def, Frame.member] using hseqs
  · intro m hm
    obtain ⟨f, hf, rfl⟩ := List.mem_map.1 hm
    exact hlens f hf
  · intro ms hms
    obtain ⟨g, -, hg⟩ := hleft ms hms
    have hlt : groupSize.toNat < 256 := groupSize.toNat_lt
    rw [hg.size]
    simp only [FecSender.new]
    omega

/-- The wire format returns the share it was given, so what reaches the
receiver covers a group of the stream. -/
theorem carried_of_fromSender {groupSize parityCount : UInt8} {frames : List Frame}
    {groups : List (List Member)} (hstream : Stream (frames.map Frame.member) groups)
    (hgroups : ∀ g ∈ sendAll (FecSender.new groupSize parityCount) frames,
      ∃ ms ∈ groups, Completes (FecSender.new groupSize parityCount) ms g)
    {c : Call} (hc : FromSender groupSize parityCount frames c) :
    Carried (frames.map Frame.member) groups c := by
  cases c with
  | observeData env seq plaintext =>
    obtain ⟨f, hf, rfl, rfl⟩ := hc
    exact List.mem_map.2 ⟨f, hf, rfl⟩
  | tryRecover env kind parity =>
    obtain ⟨g, hg, share, hshare, hdecode⟩ := hc
    obtain ⟨ms, hms, hdone⟩ := hgroups g hg
    have hcov := hdone.covers hshare
    have hround := decode_encode_append (fits_of_covers (hstream.wireGroup hms) hcov) []
    rw [List.append_nil, hdecode] at hround
    cases hround
    exact ⟨ms, hms, hcov⟩
  | takeLateRecoveries => trivial
  | tick now => trivial

/-- No fabrication: whatever subset of a sender's frames and parity shares
reaches a fresh buffer, in whatever order and however often, every pair it
returns as recovered is a frame the sender was given. -/
theorem recovered_mem_sent (groupSize parityCount : UInt8) (frames : List Frame)
    (receiverParityCount : UInt8) (now : Instant) (calls : List Call)
    (hseqs : (frames.map Frame.seq).Pairwise (· < ·))
    (hlens : ∀ f ∈ frames, f.plaintext.length ≤ 65535)
    (hcalls : ∀ c ∈ calls, FromSender groupSize parityCount frames c) :
    ∀ r ∈ Mealy.log step (FecRecoveryBuffer.new receiverParityCount now) calls,
      ∀ m ∈ r.2.recovered, ∃ f ∈ frames, (f.seq, f.plaintext) = m := by
  obtain ⟨groups, hstream, hgroups⟩ := exists_stream hseqs hlens
  have hsound := (sound_new receiverParityCount now).run hstream
    fun c hc => carried_of_fromSender hstream hgroups (hcalls c hc)
  intro r hr m hm
  exact List.mem_map.1 (hsound.2 r hr hm)

/-- A run with two of three members lost: `P` is parked, the late member 11
unlocks it, and what is taken is frame 10 as sent. -/
theorem recovered_mem_sent_late :
    let frames : List Frame :=
      [⟨10, [1, 2, 3], 0⟩, ⟨11, [4, 5], 1⟩, ⟨12, [7, 8, 9, 10], 0⟩]
    let env : CallEnv := ⟨fun _ => 0, 0⟩
    let calls : List Call :=
      [.observeData env 12 [7, 8, 9, 10],
        .tryRecover env .P ⟨[10, 11, 12], [3, 2, 4], [2, 15, 10, 10]⟩,
        .tick 1000,
        .observeData env 11 [4, 5], .takeLateRecoveries]
    (∀ r ∈ Mealy.log step (FecRecoveryBuffer.new 2 0) calls,
      ∀ m ∈ r.2.recovered, ∃ f ∈ frames, (f.seq, f.plaintext) = m) ∧
    (Mealy.log step (FecRecoveryBuffer.new 2 0) calls).map (·.2.recovered) =
      [[], [], [], [], [(10, [1, 2, 3])]] := by
  intro frames env calls
  refine ⟨recovered_mem_sent 3 2 frames 2 0 calls (by decide) (by decide) ?_, by decide +kernel⟩
  have hshare : (⟨[10, 11, 12], [3, 2, 4], [2, 15, 10, 10]⟩ : FecParityPayload) ∈
      (sendAll (FecSender.new 3 2) frames).map FecGroup.p := by decide +kernel
  intro c hc
  simp only [calls, List.mem_cons, List.not_mem_nil, or_false] at hc
  rcases hc with rfl | rfl | rfl | rfl | rfl
  · exact ⟨⟨12, [7, 8, 9, 10], 0⟩, by decide, rfl, rfl⟩
  · obtain ⟨g, hg, hp⟩ := List.mem_map.1 hshare
    exact ⟨g, hg, g.p, rfl, by rw [hp]; rfl⟩
  · trivial
  · exact ⟨⟨11, [4, 5], 1⟩, by decide, rfl, rfl⟩
  · trivial

end Mlvpn.Ports.FecRecoverySound
