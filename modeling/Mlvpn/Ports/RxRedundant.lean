import Mlvpn.Ports.RxPipeline
import Mlvpn.Ports.TxDispatch

/-!
# Redundant mode at the receiver

Without FEC the pipeline writes every data frame it takes from its channel, at
once and in the order taken: `rx_deliver` drains the reorder buffer after each
insertion, so nothing is ever pending when the next frame comes, and a frame at
or below the watermark is counted as late and written all the same.  Nothing on
this path compares sequence numbers across deliveries, so the copies that
redundant mode sends over several links are all written.

## Main results

* `written_eq_taken` — FEC off: what is written is what was taken.
* `written_once_iff` — each number is written at most once exactly when at most
  one copy of it is taken.
-/

namespace Mlvpn.Ports.RxRedundant

open Verified Protocol FecSend RxPipeline
open FecRecovery (FecRecoveryBuffer CallEnv Instant)
open TxDispatch (State Config Action Env LinkView)

/-! ## Deliveries from an empty reorder buffer -/

section

variable {b : ReorderBuffer}

@[simp] theorem drainReady_pending (b : ReorderBuffer) (now : Instant) :
    (b.drainReady now).1.pending = ∅ := rfl

theorem drainReady_empty (h : b.pending = ∅) (now : Instant) : (b.drainReady now).2 = [] := by
  unfold ReorderBuffer.drainReady
  rw [h]
  rfl

/-- With nothing pending a frame is written at once, and nothing stays behind. -/
theorem rxDeliver_written (h : b.pending = ∅) (env : EventEnv) (k : Nat) (m : Member) :
    (rxDeliver env k b m).1.pending = ∅ ∧ (rxDeliver env k b m).2 = [m] := by
  unfold rxDeliver
  by_cases hprimary : env.primary k = true
  · rw [if_pos hprimary]
    exact ⟨h, rfl⟩
  · rw [if_neg hprimary]
    refine ⟨drainReady_pending _ _, ?_⟩
    have hpending : (b.insert (env.insertedAt k) m.1 m.2).pending =
        (∅ : Std.TreeMap UInt64 (Instant × Bytes)).insert m.1 (env.insertedAt k, m.2) := by
      simp only [ReorderBuffer.insert, h]
    unfold ReorderBuffer.drainReady
    rw [hpending]
    rfl

end

/-! ## FEC off -/

/-- The data frames among the events. -/
def dataFrames (evs : List RxEvent) : List Member :=
  evs.filterMap fun ev => match ev with
    | .Data seq plaintext => some (seq, plaintext)
    | _ => none

theorem dataFrames_append (evs evs' : List RxEvent) :
    dataFrames (evs ++ evs') = dataFrames evs ++ dataFrames evs' :=
  List.filterMap_append

/-- An event the channel carries when FEC is off. -/
def NotParity : RxEvent → Prop
  | .Parity _ _ => False
  | _ => True

/-- FEC is off and nothing is pending or on its way that FEC would handle. -/
structure PassThrough (p : Pipeline) : Prop where
  fecOff : p.fecEnabled = false
  pending : p.reorder.pending = ∅
  channel : ∀ ev ∈ p.channel, NotParity ev

theorem passThrough_new (windowMs : Nat) (fec : FecRecoveryBuffer) :
    PassThrough (Pipeline.new false windowMs fec) where
  fecOff := rfl
  pending := rfl
  channel := by simp [Pipeline.new]

section

variable {p : Pipeline}

theorem handle_passThrough (h : PassThrough p) (env : EventEnv) {ev : RxEvent}
    (hev : NotParity ev) :
    PassThrough (p.handle env ev).1 ∧ (p.handle env ev).2 = dataFrames [ev] ∧
      (p.handle env ev).1.channel = p.channel := by
  cases ev with
  | Data seq plaintext =>
    obtain ⟨hpending, hout⟩ := rxDeliver_written h.pending env 0 (seq, plaintext)
    simp only [Pipeline.handle, h.fecOff, Bool.false_eq_true, if_false, Pipeline.setReorder]
    exact ⟨{ fecOff := rfl, pending := hpending, channel := h.channel }, hout, trivial⟩
  | Parity kind parity => exact absurd hev id
  | SetReorderWindow ms =>
    exact ⟨{ fecOff := h.fecOff, pending := h.pending, channel := h.channel }, rfl, rfl⟩

/-- A batch writes its data frames, in the batch's order. -/
theorem handleAll_passThrough (h : PassThrough p) (envs : Nat → EventEnv) (k : Nat)
    {evs : List RxEvent} (hevs : ∀ ev ∈ evs, NotParity ev) :
    PassThrough (Pipeline.handleAll envs k p evs).1 ∧
      (Pipeline.handleAll envs k p evs).2 = dataFrames evs ∧
      (Pipeline.handleAll envs k p evs).1.channel = p.channel := by
  induction evs generalizing p k with
  | nil => exact ⟨h, rfl, rfl⟩
  | cons ev evs ih =>
    obtain ⟨hpass, hout, hchannel⟩ := handle_passThrough h (envs k) (hevs ev (by simp))
    obtain ⟨hpass', hout', hchannel'⟩ := ih hpass (k + 1) fun e he => hevs e (by simp [he])
    refine ⟨hpass', ?_, hchannel'.trans hchannel⟩
    change (p.handle (envs k) ev).2 ++
      (Pipeline.handleAll envs (k + 1) (p.handle (envs k) ev).1 evs).2 = dataFrames ([ev] ++ evs)
    rw [hout, hout', dataFrames_append]

theorem receive_passThrough (h : PassThrough p) (available : Nat) (envs : Nat → EventEnv)
    (batchStart batchEnd : Instant) :
    PassThrough (p.receive available envs batchStart batchEnd).1 ∧
      (p.receive available envs batchStart batchEnd).2.written =
        dataFrames (p.receive available envs batchStart batchEnd).2.taken ∧
      (p.receive available envs batchStart batchEnd).2.taken ++
        (p.receive available envs batchStart batchEnd).1.channel = p.channel := by
  simp only [Pipeline.receive]
  split
  · exact ⟨h, rfl, rfl⟩
  · have hrest : PassThrough
        { p with
          channel := p.channel.drop (min available RX_PIPELINE_BATCH)
          stats := { p.stats with maxBacklog := max p.stats.maxBacklog p.channel.length } } :=
      { fecOff := h.fecOff, pending := h.pending,
        channel := fun ev hev => h.channel ev (List.mem_of_mem_drop hev) }
    have hbatch : ∀ ev ∈ p.channel.take (min available RX_PIPELINE_BATCH), _ :=
      fun ev hev => h.channel ev (List.mem_of_mem_take hev)
    obtain ⟨hpass, hout, hchannel⟩ := handleAll_passThrough hrest envs 0 hbatch
    refine ⟨{ fecOff := hpass.fecOff, pending := hpass.pending, channel := hpass.channel },
      hout, ?_⟩
    refine (congrArg (List.take _ p.channel ++ ·) hchannel).trans ?_
    exact List.take_append_drop _ _

/-- What a receiving link hands over: its event, unless it is ignored or dropped. -/
theorem deliver_passThrough (h : PassThrough p) (ev : RxEvent) :
    PassThrough (p.deliver ev) ∧
      ((p.deliver ev).channel = p.channel ∨ (p.deliver ev).channel = p.channel ++ [ev]) := by
  have hpush : NotParity ev → PassThrough { p with channel := p.channel ++ [ev] } := fun hev =>
    { fecOff := h.fecOff, pending := h.pending
      channel := fun e he => by
        rcases List.mem_append.1 he with he | he
        · exact h.channel e he
        · rw [List.mem_singleton.1 he]
          exact hev }
  have hdrop : PassThrough { p with dropped := p.dropped + 1 } :=
    { fecOff := h.fecOff, pending := h.pending, channel := h.channel }
  cases ev with
  | Parity kind parity =>
    simp only [Pipeline.deliver, h.fecOff, Bool.false_eq_true, if_false]
    exact ⟨h, Or.inl trivial⟩
  | Data seq plaintext =>
    simp only [Pipeline.deliver]
    split
    · exact ⟨hpush trivial, Or.inr rfl⟩
    · exact ⟨hdrop, Or.inl rfl⟩
  | SetReorderWindow ms =>
    simp only [Pipeline.deliver]
    split
    · exact ⟨hpush trivial, Or.inr rfl⟩
    · exact ⟨hdrop, Or.inl rfl⟩

end

/-- The events the receiving links hand over. -/
def handedOver : RxAction → List RxEvent
  | .deliver ev => [ev]
  | _ => []

/-- One step of a pipeline without FEC: it writes the data it takes, and what it
takes comes from the channel's front. -/
theorem step_passThrough {p : Pipeline} (h : PassThrough p) (a : RxAction) :
    PassThrough (p.step a).1 ∧ (p.step a).2.written = dataFrames (p.step a).2.taken ∧
      ((p.step a).2.taken ++ (p.step a).1.channel).Sublist (p.channel ++ handedOver a) := by
  cases a with
  | deliver ev =>
    obtain ⟨hpass, hchannel⟩ := deliver_passThrough h ev
    refine ⟨hpass, rfl, ?_⟩
    change ([] ++ (p.deliver ev).channel).Sublist (p.channel ++ [ev])
    rcases hchannel with hsame | hpush
    · rw [hsame]
      exact List.sublist_append_left _ _
    · rw [hpush]
      exact List.Sublist.refl _
  | recvMany available envs batchStart batchEnd =>
    obtain ⟨hpass, hout, hchannel⟩ := receive_passThrough h available envs batchStart batchEnd
    refine ⟨hpass, hout, ?_⟩
    rw [show handedOver _ = [] from rfl, List.append_nil]
    exact hchannel ▸ List.Sublist.refl _
  | flushTick now =>
    refine ⟨{ fecOff := h.fecOff, pending := rfl, channel := h.channel },
      drainReady_empty h.pending now, ?_⟩
    exact List.sublist_append_left _ _
  | fecTick now =>
    simp only [Pipeline.step, h.fecOff, Bool.false_eq_true, if_false]
    exact ⟨h, rfl, List.sublist_append_left _ _⟩
  | reportTick =>
    exact ⟨{ fecOff := h.fecOff, pending := h.pending, channel := h.channel }, rfl,
      List.sublist_append_left _ _⟩

/-! ## Over a run -/

/-- The events a run took from its channel. -/
def taken (log : List (RxAction × Output)) : List RxEvent := log.flatMap (·.2.taken)

/-- The frames a run wrote to the TUN. -/
def written (log : List (RxAction × Output)) : List Member := log.flatMap (·.2.written)

/-- The data frames that arrive on the links, in order. -/
def arrivals (actions : List RxAction) : List Member := dataFrames (actions.flatMap handedOver)

/-- Without FEC a run writes the data frames it takes, each time it takes one. -/
theorem written_eq_taken {p : Pipeline} (h : PassThrough p) (actions : List RxAction) :
    written (Mealy.log Pipeline.step p actions) =
      dataFrames (taken (Mealy.log Pipeline.step p actions)) := by
  induction actions generalizing p with
  | nil => rfl
  | cons a actions ih =>
    obtain ⟨hpass, hout, -⟩ := step_passThrough h a
    have hnext := ih hpass
    simp only [written, taken, Mealy.log_cons, List.flatMap_cons] at hnext ⊢
    rw [hout, hnext, dataFrames_append]

/-- What a run takes was in the channel or arrived, in that order. -/
theorem taken_sublist {p : Pipeline} (h : PassThrough p) (actions : List RxAction) :
    (taken (Mealy.log Pipeline.step p actions)).Sublist
      (p.channel ++ actions.flatMap handedOver) := by
  induction actions generalizing p with
  | nil => exact List.nil_sublist _
  | cons a actions ih =>
    obtain ⟨hpass, -, hchannel⟩ := step_passThrough h a
    simp only [taken, Mealy.log_cons, List.flatMap_cons]
    have hrest : ((p.step a).2.taken ++
        taken (Mealy.log Pipeline.step (p.step a).1 actions)).Sublist
        ((p.step a).2.taken ++ ((p.step a).1.channel ++ actions.flatMap handedOver)) :=
      (ih hpass).append_left _
    refine hrest.trans ?_
    rw [← List.append_assoc, ← List.append_assoc]
    exact hchannel.append_right _

/-- The frames a send path put on its links: one entry per copy. -/
def wire {n : Nat} (s : State n) : List Member :=
  s.shared.sent.map fun e => (e.2.seq, e.2.plaintext)

/-- A receiver without FEC, fed with any of the copies a send path sent, in any
order, batching and interleaving: it writes only frames that were sent, and it
writes each number at most once exactly when it takes at most one copy of it. -/
theorem written_once_iff {n : Nat} (cfg : Config n) (sends : List (Action n)) (windowMs : Nat)
    (fec : FecRecoveryBuffer) (actions : List RxAction)
    (harrivals : List.Subperm (arrivals actions) (wire ((State.init cfg).run sends))) :
    written (Mealy.log Pipeline.step (Pipeline.new false windowMs fec) actions) ⊆
        wire ((State.init cfg).run sends) ∧
      ((∀ seq, ((written (Mealy.log Pipeline.step (Pipeline.new false windowMs fec) actions)).map
          Prod.fst).count seq ≤ 1) ↔
        ((dataFrames (taken (Mealy.log Pipeline.step (Pipeline.new false windowMs fec)
          actions))).map Prod.fst).Nodup) := by
  have hpass := passThrough_new windowMs fec
  have hwritten := written_eq_taken hpass actions
  refine ⟨?_, ?_⟩
  · have hsub : (dataFrames (taken (Mealy.log Pipeline.step (Pipeline.new false windowMs fec)
        actions))).Sublist (arrivals actions) := (taken_sublist hpass actions).filterMap _
    rw [hwritten]
    exact List.Subset.trans hsub.subset harrivals.subset
  · rw [hwritten]
    exact List.nodup_iff_count_le_one.symm

/-- Two links, both up, one frame in redundant mode, sent on each. -/
def twoCopies : List (Action 2) :=
  let env : Env := ⟨none, 1, .ok true, [], 0⟩
  .sendRedundant [7] :: List.replicate 8 (.dispatcher env) ++
    (List.replicate 4 (.worker 0 env) ++ List.replicate 4 (.worker 1 env))

def twoLinks : Config 2 :=
  ⟨fun _ => ⟨.Up, false, true⟩, fun _ => 1, fun _ => false, fun _ => false, true, 0⟩

/-- One copy arrives, is taken and written; the ticks write nothing more. -/
theorem written_once_one_copy :
    let env : EventEnv := ⟨⟨fun _ => 0, 0⟩, fun _ => false, fun _ => 0, fun _ => 0⟩
    let actions : List RxAction :=
      [.deliver (.Data 0 [7]), .recvMany 1 (fun _ => env) 0 0, .flushTick 10000000]
    let log := Mealy.log Pipeline.step (Pipeline.new false 50 (FecRecoveryBuffer.new 1 0)) actions
    written log = [(0, [7])] ∧ ∀ seq, ((written log).map Prod.fst).count seq ≤ 1 := by
  intro env actions log
  refine ⟨by decide +kernel, ?_⟩
  refine (written_once_iff twoLinks twoCopies 50 (FecRecoveryBuffer.new 1 0) actions ?_).2.2 ?_
  · have hwire : wire ((State.init twoLinks).run twoCopies) = [(0, [7]), (0, [7])] := by
      decide +kernel
    rw [hwire]
    exact (List.sublist_append_left [((0 : UInt64), ([7] : Bytes))] [(0, [7])]).subperm
  · decide +kernel

/-- Both copies of one frame arrive, a flush between them; both are written. -/
theorem both_copies_written :
    let env : EventEnv := ⟨⟨fun _ => 0, 0⟩, fun _ => false, fun _ => 0, fun _ => 0⟩
    let actions : List RxAction :=
      [.deliver (.Data 0 [7]), .recvMany 1 (fun _ => env) 0 0, .flushTick 10000000,
        .deliver (.Data 0 [7]), .recvMany 1 (fun _ => env) 0 0]
    wire ((State.init twoLinks).run twoCopies) = [(0, [7]), (0, [7])] ∧
      arrivals actions = wire ((State.init twoLinks).run twoCopies) ∧
      written (Mealy.log Pipeline.step (Pipeline.new false 50 (FecRecoveryBuffer.new 1 0))
        actions) = [(0, [7]), (0, [7])] := by
  intro env actions
  refine ⟨by decide +kernel, by decide +kernel, by decide +kernel⟩

end Mlvpn.Ports.RxRedundant
