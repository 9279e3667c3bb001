import Mlvpn.Ports.FecReconstruct
import Mlvpn.Ports.ParitySend

/-!
# A group that outlives a link

`choose_parity_link` and `send_fec_parity` against what they are for.  With the most members of a
group on the link that its parity goes to, the failure of another link that carried up to two of
them costs the group neither of its two shares, and the receiver gets these members back.

## Main results

* `sendAll_frames`: a group knows which link carried each of its frames.
* `reconstruct_without`: what the receiver makes of a group without the members of one link.
* `parity_placement`: the link picked is the unique extreme, and the group outlives another one.
-/

namespace Mlvpn.Ports.ParityPlacement

open Verified FecReconstruct FecRecovery FecSend ParitySend
open Protocol (Bytes)

/-! ## The frames of a group -/

/-- The group `g` is made of the frames `c`. -/
structure Made (s : FecSender) (c : List Frame) (g : FecGroup) : Prop where
  completes : Completes s (c.map Frame.member) g
  links : g.memberLinks = c.map Frame.link

/-- The open group keeps the link of each frame, and a completed one takes them along. -/
theorem accumulate_links {s : FecSender} {held : List Frame}
    (h : s.memberLinks = held.map Frame.link) (f : Frame) :
    match (s.accumulate f.seq f.plaintext f.link).2 with
    | none =>
      (s.accumulate f.seq f.plaintext f.link).1.memberLinks = (held ++ [f]).map Frame.link
    | some g =>
      (s.accumulate f.seq f.plaintext f.link).1.memberLinks = [] ∧
        g.memberLinks = (held ++ [f]).map Frame.link := by
  have hnext : s.memberLinks ++ [f.link] = (held ++ [f]).map Frame.link := by
    rw [h, List.map_append, List.map_singleton]
  unfold FecSender.accumulate
  by_cases hfull : (s.memberSeqs ++ [f.seq]).length < s.groupSize
  · simp only [hfull, if_true]
    exact hnext
  · simp only [hfull, if_false]
    exact ⟨trivial, hnext⟩

/-- A run cuts its frames into consecutive groups. -/
theorem sendAll_frames {s : FecSender} (held : List Frame) (h : Holds s (held.map Frame.member))
    (hlinks : s.memberLinks = held.map Frame.link) (fs : List Frame) :
    ∃ groups : List (List Frame), groups.flatten <+: held ++ fs ∧
      List.Forall₂ (Made s) groups (sendAll s fs) := by
  induction fs generalizing s held with
  | nil => exact ⟨[], List.nil_prefix, List.Forall₂.nil⟩
  | cons f fs ih =>
    obtain ⟨⟨hsize, hwithQ⟩, hspec⟩ := accumulate_spec h f.seq f.plaintext f.link
    have hspecLinks := accumulate_links hlinks f
    have hconfig : ∀ c g, Made (s.accumulate f.seq f.plaintext f.link).1 c g → Made s c g :=
      fun c g hg =>
        ⟨⟨hg.completes.size.trans (by rw [hsize]), hg.completes.p, hg.completes.q,
          hg.completes.withQ.trans hwithQ⟩, hg.links⟩
    have hheld : held.map Frame.member ++ [(f.seq, f.plaintext)] =
        (held ++ [f]).map Frame.member := by
      rw [List.map_append]
      rfl
    rw [hheld] at hspec
    rw [sendAll]
    cases hacc : s.accumulate f.seq f.plaintext f.link with
    | mk s' g =>
      rw [hacc] at hspec hspecLinks hconfig
      cases g with
      | none =>
        obtain ⟨groups, hprefix, hall⟩ := ih (held ++ [f]) hspec hspecLinks
        rw [List.append_assoc, List.singleton_append] at hprefix
        exact ⟨groups, hprefix, hall.imp hconfig⟩
      | some g =>
        obtain ⟨groups, hprefix, hall⟩ := ih [] hspec.1 hspecLinks.1
        refine ⟨(held ++ [f]) :: groups, ?_,
          List.Forall₂.cons ⟨hspec.2, hspecLinks.2⟩ (hall.imp hconfig)⟩
        rw [List.flatten_cons, List.append_cons held f fs, List.prefix_append_right_inj]
        exact hprefix

/-! ## What is left of a group -/

/-- A receiver that has every member but those that link `j` carried. -/
structure HasAllBut (b : FecRecoveryBuffer) (c : List Frame) (j : Nat) : Prop where
  has : ∀ f ∈ c, f.link ≠ j → ∃ t, b.payloads.lookup f.seq = some (t, f.plaintext)
  lacks : ∀ f ∈ c, f.link = j → b.memberState f.seq = .Missing

/-- The members that link `j` carried. -/
def carriedBy (c : List Frame) (j : Nat) : List Member :=
  (c.filter fun f => f.link = j).map Frame.member

theorem length_carriedBy (c : List Frame) (j : Nat) :
    (carriedBy c j).length = (c.map Frame.link).count j := by
  rw [carriedBy, List.length_map, List.count, List.countP_map, List.countP_eq_length_filter]
  refine congrArg List.length (List.filter_congr fun f _ => ?_)
  exact (beq_eq_decide ..).symm

section

variable {b : FecRecoveryBuffer} {c : List Frame} {j : Nat}

theorem known_of_lookup {seq : UInt64} {v : Instant × Bytes}
    (h : b.payloads.lookup seq = some v) : b.memberState seq = .Known :=
  memberState_eq_known.mpr (AList.lookup_isSome.mp (Option.isSome_of_eq_some h))

theorem HasAllBut.known (h : HasAllBut b c j) {f : Frame} (hf : f ∈ c) (hlink : f.link ≠ j) :
    b.memberState f.seq = .Known := by
  obtain ⟨t, ht⟩ := h.has f hf hlink
  exact known_of_lookup ht

theorem HasAllBut.retains (h : HasAllBut b c j) : Retains b (c.map Frame.member) := by
  intro m hm t bytes hlook
  obtain ⟨f, hf, rfl⟩ := List.mem_map.mp hm
  by_cases hlink : f.link = j
  · exact nomatch (h.lacks f hf hlink).symm.trans (known_of_lookup hlook)
  · obtain ⟨t', ht'⟩ := h.has f hf hlink
    rw [show b.payloads.lookup f.member.1 = _ from ht'] at hlook
    cases hlook
    rfl

theorem HasAllBut.missing (h : HasAllBut b c j) :
    membersIn b .Missing (c.map Frame.member) = carriedBy c j := by
  rw [membersIn, carriedBy, List.filter_map]
  refine congrArg (List.map Frame.member) (List.filter_congr fun f hf => ?_)
  refine decide_eq_decide.mpr ⟨fun hmissing => ?_, h.lacks f hf⟩
  by_contra hlink
  cases (h.known hf hlink).symm.trans hmissing

theorem HasAllBut.handled (h : HasAllBut b c j) :
    membersIn b .Handled (c.map Frame.member) = [] := by
  refine List.filter_eq_nil_iff.mpr fun m hm hstate => ?_
  obtain ⟨f, hf, rfl⟩ := List.mem_map.mp hm
  have hhandled : b.memberState f.seq = .Handled := of_decide_eq_true hstate
  by_cases hlink : f.link = j
  · cases (h.lacks f hf hlink).symm.trans hhandled
  · cases (h.known hf hlink).symm.trans hhandled

/-- With both shares, up to two members come back. -/
theorem reconstruct_without {s : FecSender} {g : FecGroup} (hmade : Made s c g)
    (hwithQ : s.withQ = true) (hwire : WireGroup (c.map Frame.member)) (h : HasAllBut b c j)
    (hparity : 2 ≤ b.parityCount) (htwo : g.memberLinks.count j ≤ 2) :
    b.reconstruct ⟨some g.p, g.q⟩ =
      if carriedBy c j = [] then .AlreadyComplete else .Recovered (carriedBy c j) := by
  have hshares : SharesOf (c.map Frame.member) ⟨some g.p, g.q⟩ :=
    ⟨fun p hp => Option.some.inj hp ▸ hmade.completes.p, hmade.completes.q, .inl rfl⟩
  have hq : g.q.isSome = true := hmade.completes.withQ.trans hwithQ
  have hmax : b.maxErasures = 2 := if_pos hparity
  rw [hmade.links, ← length_carriedBy] at htwo
  rw [reconstruct_members hwire hshares h.retains, h.missing, h.handled]
  by_cases hnone : carriedBy c j = []
  · rw [if_pos hnone, if_pos hnone]
  · rw [if_neg hnone, if_neg hnone, if_neg, if_neg fun hless => hless.2 ⟨rfl, hq⟩]
    rw [hmax]
    exact fun hover => hover.elim (fun hmore => absurd hmore (Nat.not_lt.mpr htwo))
      fun hpos => absurd hpos (Nat.lt_irrefl 0)

end

/-! ## The placement -/

theorem infix_flatten {c : List Frame} {groups : List (List Frame)} (h : c ∈ groups) :
    c <:+: groups.flatten := by
  obtain ⟨before, after, rfl⟩ := List.append_of_mem h
  exact ⟨before.flatten, after.flatten, by simp⟩

theorem made_of_mem {groupSize parityCount : UInt8} {frames : List Frame} {g : FecGroup}
    (hg : g ∈ sendAll (FecSender.new groupSize parityCount) frames) :
    ∃ c, c <:+: frames ∧ Made (FecSender.new groupSize parityCount) c g := by
  obtain ⟨groups, hprefix, hall⟩ :=
    sendAll_frames [] (holds_new groupSize parityCount) rfl frames
  obtain ⟨k, hk, rfl⟩ := List.mem_iff_getElem.mp hg
  have hk' : k < groups.length := hall.length_eq ▸ hk
  refine ⟨groups[k], ?_, (List.forall₂_iff_get.mp hall).2 k hk' hk⟩
  exact (infix_flatten (List.getElem_mem hk')).trans hprefix.isInfix

/-- The shares go to the link that was picked. -/
theorem sendFecParity_forced {g : FecGroup} {placement : FecParityPlacement} {usable : List Bool}
    {i : Nat} (hpick : chooseParityLink placement g.memberLinks usable = some i) (headroom : Nat)
    (mtu : UInt16) (total : UInt64) (stats : FecSendStats) {frame : ParityFrame}
    (h : frame ∈ (sendFecParity g placement headroom mtu usable total stats).queued) :
    frame.forced = some i := by
  have hplacement : placement ≠ .Scheduler := by
    rintro rfl
    exact nomatch hpick
  by_cases hbudget : g.p.encode.length > mtu.toNat + headroom
  · simp [sendFecParity, if_pos hbudget] at h
  · simp only [sendFecParity, if_neg hbudget, if_neg hplacement, List.mem_cons] at h
    rcases h with rfl | hq
    · exact hpick
    · cases hshare : g.q with
      | none => simp [hshare] at hq
      | some q =>
        simp only [hshare, List.mem_singleton] at hq
        rw [hq]
        exact hpick

/-- The link picked is the one usable link that carried the most members of the group, or the
fewest.  The shares of a group go to the link with the most, and then any other link may fail that
carried up to two members: a receiver that has the others gets these back from the shares. -/
theorem parity_placement :
    (∀ (memberLinks : List Nat) (usable : List Bool) (i : Nat),
      (chooseParityLink .Dominant memberLinks usable = some i ↔
        usable.getD i false = true ∧ 0 < memberLinks.count i ∧
          ∀ j, usable.getD j false = true → j ≠ i → memberLinks.count j < memberLinks.count i) ∧
      (chooseParityLink .Diverse memberLinks usable = some i ↔
        usable.getD i false = true ∧
          ∀ j, usable.getD j false = true → j ≠ i → memberLinks.count i < memberLinks.count j)) ∧
    ∀ (groupSize parityCount : UInt8) (frames : List Frame) (usable : List Bool) (i : Nat),
      2 ≤ parityCount → (∀ f ∈ frames, f.plaintext.length ≤ 65535) →
      ∀ g ∈ sendAll (FecSender.new groupSize parityCount) frames,
        chooseParityLink .Dominant g.memberLinks usable = some i →
        ∃ c : List Frame, c <:+: frames ∧ g.p.memberSeqs = c.map Frame.seq ∧
          g.memberLinks = c.map Frame.link ∧
          (∀ headroom mtu total stats, ∀ frame ∈
            (sendFecParity g .Dominant headroom mtu usable total stats).queued,
            frame.forced = some i) ∧
          ∀ j ≠ i, g.memberLinks.count j ≤ 2 → ∀ b : FecRecoveryBuffer, 2 ≤ b.parityCount →
            HasAllBut b c j →
            b.reconstruct ⟨some g.p, g.q⟩ =
              if carriedBy c j = [] then .AlreadyComplete else .Recovered (carriedBy c j) := by
  refine ⟨fun memberLinks usable i => ⟨chooseParityLink_dominant, chooseParityLink_diverse⟩, ?_⟩
  intro groupSize parityCount frames usable i hparity hlens g hg hpick
  obtain ⟨c, hpiece, hmade⟩ := made_of_mem hg
  have hwire : WireGroup (c.map Frame.member) := by
    constructor
    · have hbyte : groupSize.toNat < 256 := groupSize.toNat_lt
      have hsize : (c.map Frame.member).length = max 1 groupSize.toNat := hmade.completes.size
      omega
    · intro m hm
      obtain ⟨f, hf, rfl⟩ := List.mem_map.mp hm
      exact hlens f (hpiece.subset hf)
  refine ⟨c, hpiece, ?_, hmade.links, ?_, fun j _ htwo b hb hbut => ?_⟩
  · rw [hmade.completes.p.seqs, List.map_map]
    rfl
  · exact fun headroom mtu total stats frame => sendFecParity_forced hpick headroom mtu total stats
  · exact reconstruct_without hmade (decide_eq_true hparity) hwire hbut hb htwo

/-- Link 1 has carried two frames of five and fails; link 0 has carried the others and both
shares. -/
theorem parity_placement_two_lost :
    let frames : List Frame :=
      [⟨10, [1], 0⟩, ⟨11, [2, 6], 1⟩, ⟨12, [3], 0⟩, ⟨13, [4], 1⟩, ⟨14, [5], 0⟩]
    let env : CallEnv := ⟨fun _ => 0, 0⟩
    let b := Mealy.run step (FecRecoveryBuffer.new 2 0)
      [.observeData env 10 [1], .observeData env 12 [3], .observeData env 14 [5]]
    ∀ g ∈ sendAll (FecSender.new 5 2) frames,
      b.reconstruct ⟨some g.p, g.q⟩ = .Recovered [(11, [2, 6]), (13, [4])] := by
  intro frames env b g hg
  have hpick : ∀ g ∈ sendAll (FecSender.new 5 2) frames,
      chooseParityLink .Dominant g.memberLinks [true, true] = some 0 ∧
        g.p.memberSeqs.length = 5 ∧ g.memberLinks.count 1 ≤ 2 := by decide +kernel
  obtain ⟨hdominant, hlen, htwo⟩ := hpick g hg
  obtain ⟨c, hpiece, hseqs, -, -, hsurvives⟩ :=
    parity_placement.2 5 2 frames [true, true] 0 (by decide) (by decide) g hg hdominant
  obtain rfl : c = frames := by
    refine hpiece.eq_of_length ?_
    rw [hseqs, List.length_map] at hlen
    exact hlen
  have hhas : ∀ f ∈ frames, f.link ≠ 1 → b.payloads.lookup f.seq = some (0, f.plaintext) := by
    decide +kernel
  exact hsurvives 1 (by decide) htwo b (by decide +kernel)
    ⟨fun f hf hlink => ⟨0, hhas f hf hlink⟩, by decide +kernel⟩

end Mlvpn.Ports.ParityPlacement
