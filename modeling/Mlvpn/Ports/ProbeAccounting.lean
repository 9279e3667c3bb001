import Mlvpn.Ports.Congestion
import Mlvpn.Ports.LinkMonitor
import Mlvpn.Verified.AssocMap
import Mlvpn.Verified.PastTime

/-!
# Outstanding probes

Port of `monitor::ProbeTracker`, the table of a link's probes that wait for a reply.  Its
prober records what it sends and sweeps what has waited too long; its receiver asks for the
round trip of every reply.  The two tasks share the table, so replies and sweeps come in any
order.  A sweep reads the clock once for every entry, and so takes one reading for each.

A returned round trip is one `record_rtt`, and a sweep that returns `n` is followed by `n`
times `record_miss`: `recorded` are the outcomes that reach `LinkStats`.

## Main results

* `inv_step`: the table holds the probes that wait, and the others have been recorded.
* `probes_accounted`: over any calls that send no number twice, hits, misses and waiting
  probes add up to the probes sent, and at which call each probe is counted.
-/

namespace Mlvpn.Ports.ProbeAccounting

open Verified AssocMap PastTime
open Congestion (asSecsF64)
open FecRecovery (Instant)
open LinkMonitor (Outcome)
open Verified.Floating (ofRat)

/-! ## The table -/

structure ProbeTracker where
  outstanding : AList fun _ : UInt32 => Instant
  timeout : Nat

namespace ProbeTracker

variable (F : Type*) [Floating F]

def new (timeout : Nat) : ProbeTracker := ⟨∅, timeout⟩

def recordSent (t : ProbeTracker) (probeSeq : UInt32) (now : Instant) : ProbeTracker :=
  { t with outstanding := t.outstanding.insert probeSeq now }

/-- The round trip in milliseconds, of a probe that still waits. -/
def recordReply (t : ProbeTracker) (probeSeq : UInt32) (now : Instant) :
    ProbeTracker × Option F :=
  match t.outstanding.lookup probeSeq with
  | none => (t, none)
  | some sentAt => ({ t with outstanding := t.outstanding.erase probeSeq },
      some (asSecsF64 (now - sentAt) * ofRat 1000))

/-- Drop what has waited for the timeout, and count it; `now` is the clock at each entry. -/
def sweepTimeouts (t : ProbeTracker) (now : UInt32 → Instant) : ProbeTracker × Nat :=
  let before := t.outstanding.entries.length
  let outstanding := retain t.outstanding fun probeSeq sentAt => now probeSeq - sentAt < t.timeout
  ({ t with outstanding }, before - outstanding.entries.length)

end ProbeTracker

/-! ## Calls -/

variable (F : Type*) [Floating F]

inductive Call where
  | recordSent (probeSeq : UInt32) (now : Instant)
  | recordReply (probeSeq : UInt32) (now : Instant)
  | sweepTimeouts (now : UInt32 → Instant)

inductive Answer where
  | unit
  | rtt (rttMs : Option F)
  | misses (count : Nat)

/-- What the receiver and the prober then record of the link. -/
def Answer.recorded : Answer F → List Outcome
  | .unit => []
  | .rtt none => []
  | .rtt (some _) => [.hit]
  | .misses count => List.replicate count .miss

def step (t : ProbeTracker) : Call → ProbeTracker × Answer F
  | .recordSent probeSeq now => (t.recordSent probeSeq now, .unit)
  | .recordReply probeSeq now =>
      let (t, rttMs) := t.recordReply F probeSeq now
      (t, .rtt rttMs)
  | .sweepTimeouts now =>
      let (t, count) := t.sweepTimeouts now
      (t, .misses count)

/-- A call with the probes that leave the table at it. -/
def audited (t : ProbeTracker) (call : Call) : ProbeTracker × Answer F × List UInt32 :=
  ((step F t call).1, (step F t call).2,
    t.outstanding.keys.filter (· ∉ (step F t call).1.outstanding))

/-- The table after the calls. -/
def after (timeout : Nat) (calls : List Call) : ProbeTracker :=
  Mealy.run (audited F) (.new timeout) calls

/-- The outcomes recorded so far. -/
def outcomes (log : List (Call × Answer F × List UInt32)) : List Outcome :=
  log.flatMap fun entry => entry.2.1.recorded

/-- The probes counted so far, each at the call at which it left the table. -/
def counted (log : List (Call × Answer F × List UInt32)) : List UInt32 :=
  log.flatMap fun entry => entry.2.2

/-- The probe a call sends. -/
def Call.sent : Call → Option UInt32
  | .recordSent probeSeq _ => some probeSeq
  | _ => none

def sentSeqs (calls : List Call) : List UInt32 := calls.filterMap Call.sent

/-! ## Probes that wait -/

/-- A call that settles the probe, if it waits: its reply, or a sweep at which it is too old. -/
def Settles (timeout : Nat) (probeSeq : UInt32) (sentAt : Instant) : Call → Prop
  | .recordSent _ _ => False
  | .recordReply replied _ => replied = probeSeq
  | .sweepTimeouts now => timeout ≤ now probeSeq - sentAt

/-- The probe was sent, and no call since has settled it. -/
def Waiting (timeout : Nat) (calls : List Call) (probeSeq : UInt32) (sentAt : Instant) : Prop :=
  Since (fun call => ¬Settles timeout probeSeq sentAt call)
    (fun call => call = .recordSent probeSeq sentAt) calls

/-- The account of a link's probes after some calls. -/
structure Accounted (timeout : Nat) (calls : List Call) : Prop where
  /-- Hits, misses and waiting probes are the probes sent. -/
  balance :
    (outcomes F (Mealy.log (audited F) (.new timeout) calls)).count .hit +
      (outcomes F (Mealy.log (audited F) (.new timeout) calls)).count .miss +
      (after F timeout calls).outstanding.entries.length = (sentSeqs calls).length
  /-- Every outcome is one probe's, and no probe has two. -/
  once : (counted F (Mealy.log (audited F) (.new timeout) calls)).length =
      (outcomes F (Mealy.log (audited F) (.new timeout) calls)).length ∧
    (counted F (Mealy.log (audited F) (.new timeout) calls)).Nodup
  /-- A reply gets a round trip exactly when its probe waits. -/
  answered : ∀ probeSeq now rttMs, ((after F timeout calls).recordReply F probeSeq now).2 =
      some rttMs ↔ ∃ sentAt, Waiting timeout calls probeSeq sentAt ∧
        rttMs = asSecsF64 (now - sentAt) * ofRat 1000
  /-- A sweep counts the probes that wait and have reached the timeout, and drops no other. -/
  swept : ∀ now, ∃ lost : List UInt32, lost.Nodup ∧
    ((after F timeout calls).sweepTimeouts now).2 = lost.length ∧
    (∀ probeSeq, probeSeq ∈ lost ↔
      probeSeq ∈ (after F timeout calls).outstanding ∧
        probeSeq ∉ ((after F timeout calls).sweepTimeouts now).1.outstanding) ∧
    ∀ probeSeq, probeSeq ∈ lost ↔ ∃ sentAt, Waiting timeout calls probeSeq sentAt ∧
      timeout ≤ now probeSeq - sentAt
  /-- A reply to a probe that a sweep has dropped is ignored. -/
  late : ∀ before swept rest, calls = before ++ .sweepTimeouts swept :: rest → ∀ probeSeq,
    probeSeq ∈ (after F timeout before).outstanding →
    probeSeq ∉ ((after F timeout before).sweepTimeouts swept).1.outstanding →
    ∀ now, (after F timeout calls).recordReply F probeSeq now = (after F timeout calls, none)

/-! ## One call -/

theorem length_keys (m : AList fun _ : UInt32 => Instant) : m.keys.length = m.entries.length :=
  List.length_map _

section

variable {F} {t : ProbeTracker} {call : Call}

theorem recordReply_of_none {replied : UInt32} (h : t.outstanding.lookup replied = none)
    (now : Instant) : t.recordReply F replied now = (t, none) := by
  rw [ProbeTracker.recordReply, h]

theorem recordReply_of_some {replied : UInt32} {sentAt : Instant}
    (h : t.outstanding.lookup replied = some sentAt) (now : Instant) :
    t.recordReply F replied now = ({ t with outstanding := t.outstanding.erase replied },
      some (asSecsF64 (now - sentAt) * ofRat 1000)) := by
  rw [ProbeTracker.recordReply, h]

/-- A probe that is sent takes none out of the table. -/
theorem left_recordSent (sent : UInt32) (now : Instant) :
    (audited F t (.recordSent sent now)).2.2 = [] := by
  refine List.filter_eq_nil_iff.mpr fun key hkey => ?_
  rw [decide_eq_true_iff, not_not]
  exact (AList.mem_insert _).mpr (Or.inr hkey)

section

variable (hfresh : ∀ probeSeq ∈ call.sent, probeSeq ∉ t.outstanding)
include hfresh

/-- What a probe finds in the table after a call that sends no number that is in it. -/
theorem lookup_step (probeSeq : UInt32) (sentAt : Instant) :
    (step F t call).1.outstanding.lookup probeSeq = some sentAt ↔
      call = .recordSent probeSeq sentAt ∨
        t.outstanding.lookup probeSeq = some sentAt ∧ ¬Settles t.timeout probeSeq sentAt call := by
  cases call with
  | recordSent sent now =>
    have hnone := AList.lookup_eq_none.mpr (hfresh sent rfl)
    show (t.outstanding.insert sent now).lookup probeSeq = some sentAt ↔ _
    by_cases hsame : probeSeq = sent
    · subst hsame
      rw [AList.lookup_insert, hnone, Option.some_inj, Call.recordSent.injEq]
      exact ⟨fun hnow => Or.inl ⟨rfl, hnow⟩, fun h => h.elim And.right fun h => nomatch h.1⟩
    · rw [AList.lookup_insert_ne hsame, Call.recordSent.injEq]
      exact ⟨fun hlook => Or.inr ⟨hlook, not_false⟩, fun h =>
        h.elim (fun heq => absurd heq.1.symm hsame) And.left⟩
  | recordReply replied now =>
    show (t.recordReply F replied now).1.outstanding.lookup probeSeq = some sentAt ↔ _
    have hkeeps : (t.recordReply F replied now).1.outstanding.lookup probeSeq = some sentAt ↔
        t.outstanding.lookup probeSeq = some sentAt ∧ ¬replied = probeSeq := by
      cases hlook : t.outstanding.lookup replied with
      | none =>
        rw [recordReply_of_none hlook]
        refine ⟨fun h => ⟨h, ?_⟩, And.left⟩
        rintro rfl
        rw [hlook] at h
        cases h
      | some found =>
        rw [recordReply_of_some hlook]
        by_cases hsame : replied = probeSeq
        · subst hsame
          exact iff_of_false (by rw [AList.lookup_erase]; nofun) fun h => h.2 rfl
        · rw [AList.lookup_erase_ne (Ne.symm hsame)]
          exact ⟨fun h => ⟨h, hsame⟩, And.left⟩
    rw [hkeeps]
    exact ⟨Or.inr, fun h => h.resolve_left nofun⟩
  | sweepTimeouts now =>
    show (retain t.outstanding _).lookup probeSeq = some sentAt ↔ _
    rw [lookup_retain, Option.filter_eq_some_iff, decide_eq_true_iff, ← Nat.not_le]
    exact ⟨Or.inr, fun h => h.resolve_left nofun⟩

/-- The keys that leave at a call, and those that stay. -/
theorem audited_perm :
    ((audited F t call).2.2 ++ (audited F t call).1.outstanding.keys).Perm
      (call.sent.toList ++ t.outstanding.keys) := by
  cases call with
  | recordSent sent now =>
    have hnot : sent ∉ t.outstanding.keys := hfresh sent rfl
    rw [left_recordSent, List.nil_append]
    show (t.outstanding.insert sent now).keys.Perm (sent :: t.outstanding.keys)
    rw [AList.keys_insert, List.erase_of_not_mem hnot]
  | recordReply replied now =>
    refine keys_perm_of_subset ?_
    show (t.recordReply F replied now).1.outstanding.keys ⊆ t.outstanding.keys
    cases hlook : t.outstanding.lookup replied with
    | none =>
      rw [recordReply_of_none hlook]
      exact List.Subset.refl _
    | some found =>
      rw [recordReply_of_some hlook, AList.keys_erase]
      exact List.erase_subset
  | sweepTimeouts now => exact keys_perm_of_subset (keys_retain_subset _ _)

/-- A call is followed by one outcome for every probe that leaves the table at it. -/
theorem length_left : (audited F t call).2.2.length = (audited F t call).2.1.recorded.length := by
  have hlength := (audited_perm (F := F) hfresh).length_eq
  rw [List.length_append, List.length_append] at hlength
  cases call with
  | recordSent sent now =>
    rw [left_recordSent]
    rfl
  | recordReply replied now =>
    have hsent : (Call.recordReply replied now).sent.toList.length = 0 := rfl
    have hstep : (audited F t (.recordReply replied now)).1 =
        (t.recordReply F replied now).1 := rfl
    show (audited F t (.recordReply replied now)).2.2.length =
      (Answer.rtt (t.recordReply F replied now).2).recorded.length
    cases hlook : t.outstanding.lookup replied with
    | none =>
      rw [hstep, recordReply_of_none hlook] at hlength
      rw [recordReply_of_none hlook]
      show _ = 0
      dsimp only at hlength
      omega
    | some sentAt =>
      have hmem : replied ∈ t.outstanding.keys := mem_of_lookup hlook
      have hpos := List.length_pos_of_mem hmem
      rw [hstep, recordReply_of_some hlook, AList.keys_erase,
        List.length_erase_of_mem hmem] at hlength
      rw [recordReply_of_some hlook]
      show _ = 1
      omega
  | sweepTimeouts now =>
    have hsent : (Call.sweepTimeouts now).sent.toList.length = 0 := rfl
    have hcount : (audited F t (.sweepTimeouts now)).2.1.recorded.length =
        t.outstanding.keys.length -
          (audited F t (.sweepTimeouts now)).1.outstanding.keys.length := by
      rw [length_keys, length_keys]
      exact List.length_replicate
    omega

end

/-- The replies that get a round trip. -/
theorem recordReply_eq_some_iff {probeSeq : UInt32} {now : Instant} {rttMs : F} :
    (t.recordReply F probeSeq now).2 = some rttMs ↔
      ∃ sentAt, t.outstanding.lookup probeSeq = some sentAt ∧
        rttMs = asSecsF64 (now - sentAt) * ofRat 1000 := by
  cases hlook : t.outstanding.lookup probeSeq with
  | none =>
    rw [recordReply_of_none hlook]
    exact iff_of_false nofun fun ⟨_, hnone, _⟩ => nomatch hnone
  | some sentAt =>
    rw [recordReply_of_some hlook]
    refine ⟨fun hrtt => ⟨sentAt, rfl, (Option.some_inj.mp hrtt).symm⟩, ?_⟩
    rintro ⟨sentAt', hsame, rfl⟩
    cases hsame
    rfl

/-- The probes that leave at a sweep. -/
theorem mem_left_sweep (t : ProbeTracker) (now : UInt32 → Instant) (probeSeq : UInt32) :
    probeSeq ∈ (audited F t (.sweepTimeouts now)).2.2 ↔
      ∃ sentAt, t.outstanding.lookup probeSeq = some sentAt ∧
        t.timeout ≤ now probeSeq - sentAt := by
  refine List.mem_filter.trans ?_
  rw [decide_eq_true_iff, ← AList.mem_keys, ← AList.lookup_isSome, ← AList.lookup_eq_none]
  show _ ∧ (retain t.outstanding _).lookup probeSeq = none ↔ _
  rw [lookup_retain]
  cases t.outstanding.lookup probeSeq with
  | none => exact iff_of_false (fun h => nomatch h.1) fun ⟨_, hnone, _⟩ => nomatch hnone
  | some sentAt =>
    rw [Option.filter_some]
    by_cases hold : t.timeout ≤ now probeSeq - sentAt
    · rw [if_neg (by simpa using hold)]
      exact iff_of_true ⟨rfl, rfl⟩ ⟨sentAt, rfl, hold⟩
    · rw [if_pos (by simpa using hold)]
      refine iff_of_false (fun h => nomatch h.2) ?_
      rintro ⟨sentAt', hsame, hold'⟩
      cases hsame
      exact hold hold'

end

/-! ## Any calls -/

variable {F}

/-- The table holds what waits; every other probe sent has been counted. -/
structure Inv (timeout : Nat) (log : List (Call × Answer F × List UInt32)) (t : ProbeTracker) :
    Prop where
  unchanged : t.timeout = timeout
  waiting : ∀ probeSeq sentAt, t.outstanding.lookup probeSeq = some sentAt ↔
    Waiting timeout (log.map Prod.fst) probeSeq sentAt
  parts : (counted F log ++ t.outstanding.keys).Perm (sentSeqs (log.map Prod.fst))
  itemised : (counted F log).length = (outcomes F log).length

/-- The number of a probe that is sent has not been sent before. -/
def Fresh (log : List (Call × Answer F × List UInt32)) (_ : ProbeTracker) (call : Call) : Prop :=
  ∀ probeSeq ∈ call.sent, probeSeq ∉ sentSeqs (log.map Prod.fst)

theorem step_timeout (t : ProbeTracker) (call : Call) : (step F t call).1.timeout = t.timeout := by
  cases call with
  | recordSent sent now => rfl
  | recordReply replied now =>
    show (t.recordReply F replied now).1.timeout = t.timeout
    cases hlook : t.outstanding.lookup replied with
    | none => rw [recordReply_of_none hlook]
    | some sentAt => rw [recordReply_of_some hlook]
  | sweepTimeouts now => rfl

omit [Floating F] in
theorem inv_new (timeout : Nat) :
    Inv timeout ([] : List (Call × Answer F × List UInt32)) (.new timeout) := by
  refine ⟨rfl, fun probeSeq sentAt => ?_, List.Perm.refl _, rfl⟩
  rw [ProbeTracker.new, AList.lookup_empty]
  exact iff_of_false nofun not_since_nil

theorem inv_step (timeout : Nat) (log : List (Call × Answer F × List UInt32)) (t : ProbeTracker)
    (call : Call) (h : Inv timeout log t) (hfresh : Fresh log t call) :
    Inv timeout (log ++ [(call, (audited F t call).2)]) (audited F t call).1 := by
  have hnew : ∀ probeSeq ∈ call.sent, probeSeq ∉ t.outstanding := fun probeSeq hsent hmem =>
    hfresh probeSeq hsent (h.parts.subset (List.mem_append_right _ hmem))
  have hcounted : counted F (log ++ [(call, (audited F t call).2)]) =
      counted F log ++ (audited F t call).2.2 := by
    rw [counted, List.flatMap_append, List.flatMap_singleton]
    rfl
  have houtcomes : outcomes F (log ++ [(call, (audited F t call).2)]) =
      outcomes F log ++ (audited F t call).2.1.recorded := by
    rw [outcomes, List.flatMap_append, List.flatMap_singleton]
    rfl
  have hcalls : (log ++ [(call, (audited F t call).2)]).map Prod.fst =
      log.map Prod.fst ++ [call] := List.map_append
  have hsent : sentSeqs (log.map Prod.fst ++ [call]) =
      sentSeqs (log.map Prod.fst) ++ call.sent.toList := by
    rw [sentSeqs, List.filterMap_append]
    cases call with
    | _ => rfl
  refine ⟨(step_timeout t call).trans h.unchanged, fun probeSeq sentAt => ?_, ?_, ?_⟩
  · rw [hcalls, Waiting, since_snoc]
    refine (lookup_step hnew probeSeq sentAt).trans (or_congr_right ?_)
    rw [h.waiting, h.unchanged]
    exact Iff.rfl
  · rw [hcounted, hcalls, hsent, List.append_assoc]
    refine ((audited_perm hnew).append_left _).trans ?_
    refine (List.perm_append_comm_assoc _ _ _).trans (List.perm_append_comm.trans ?_)
    exact h.parts.append_right _
  · rw [hcounted, houtcomes, List.length_append, List.length_append, h.itemised,
      length_left hnew]

theorem inv_run {timeout : Nat} {calls : List Call} (hdistinct : (sentSeqs calls).Nodup) :
    Inv timeout (Mealy.log (audited F) (.new timeout) calls) (after F timeout calls) := by
  have hfresh : Mealy.Along (audited F) Fresh [] (.new timeout) calls := by
    refine Mealy.along_iff.mpr ?_
    rintro before call rest rfl probeSeq hsent hmem
    rw [List.nil_append, Mealy.map_fst_log] at hmem
    rw [sentSeqs, List.filterMap_append] at hdistinct
    refine List.disjoint_of_nodup_append hdistinct hmem (List.mem_filterMap.mpr ?_)
    exact ⟨call, List.mem_cons_self .., hsent⟩
  exact Mealy.invariant_along (inv_step timeout) (inv_new timeout) hfresh

theorem count_outcomes (results : List Outcome) :
    results.count .hit + results.count .miss = results.length := by
  induction results with
  | nil => rfl
  | cons result results ih =>
    cases result with
    | hit =>
      rw [List.count_cons_self, List.count_cons_of_ne (by decide), List.length_cons]
      omega
    | miss =>
      rw [List.count_cons_self, List.count_cons_of_ne (by decide), List.length_cons]
      omega

/-- Over any calls that send no number twice: hits, misses and waiting probes are the probes
sent, no probe is counted twice, replies and sweeps count the probes that wait, and a reply
that comes after the sweep is ignored. -/
theorem probes_accounted (timeout : Nat) (calls : List Call)
    (hdistinct : (sentSeqs calls).Nodup) : Accounted F timeout calls := by
  have h : Inv timeout (Mealy.log (audited F) (.new timeout) calls) (after F timeout calls) :=
    inv_run hdistinct
  have hcalls : (Mealy.log (audited F) (.new timeout) calls).map Prod.fst = calls :=
    Mealy.map_fst_log ..
  have hnodup := h.parts.nodup_iff.mpr (hcalls.symm ▸ hdistinct)
  refine ⟨?_, ⟨h.itemised, hnodup.of_append_left⟩, ?_, ?_, ?_⟩
  · have hlength := h.parts.length_eq
    rw [List.length_append, h.itemised, hcalls, length_keys] at hlength
    rw [count_outcomes, hlength]
  · intro probeSeq now rttMs
    rw [recordReply_eq_some_iff]
    simp only [h.waiting, hcalls]
  · intro now
    have hnosend : ∀ probeSeq ∈ (Call.sweepTimeouts now).sent,
        probeSeq ∉ (after F timeout calls).outstanding := nofun
    have hleft := length_left (F := F) hnosend
    refine ⟨(audited F (after F timeout calls) (.sweepTimeouts now)).2.2, ?_, ?_, ?_, ?_⟩
    · exact (after F timeout calls).outstanding.keys_nodup.filter _
    · exact (hleft.trans List.length_replicate).symm
    · intro probeSeq
      exact List.mem_filter.trans (and_congr_right fun _ => decide_eq_true_iff)
    · intro probeSeq
      rw [mem_left_sweep, h.unchanged]
      simp only [h.waiting, hcalls]
  · intro before swept rest hsplit probeSeq hin hout now
    have hmem : probeSeq ∈ counted F (Mealy.log (audited F) (.new timeout) calls) := by
      rw [hsplit, Mealy.log_append, Mealy.log_cons]
      refine List.mem_flatMap.mpr ⟨_, List.mem_append_right _ (List.mem_cons_self ..), ?_⟩
      exact List.mem_filter.mpr ⟨hin, decide_eq_true hout⟩
    have hgone : probeSeq ∉ (after F timeout calls).outstanding := fun hin =>
      List.disjoint_of_nodup_append hnodup hmem hin
    exact recordReply_of_none (AList.lookup_eq_none.mpr hgone) now

/-- Two probes with a timeout of 500 ns: the first is answered, a stray reply is not, and the
second is swept before its reply. -/
theorem probes_accounted_late_reply :
    Accounted ℚ 500 [.recordSent 1 0, .recordSent 2 50, .recordReply 1 20, .recordReply 9 30,
      .sweepTimeouts fun _ => 600, .recordReply 2 610] :=
  probes_accounted 500 _ (by decide)

end Mlvpn.Ports.ProbeAccounting
