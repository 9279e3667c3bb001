import Mlvpn.Ports.Sendmmsg
import Mathlib.Algebra.Order.BigOperators.Group.List

/-!
# A batch is its frames, one by one

`wg_send_batch` promises the contract of `wg_send_parts` for every frame of the
batch, whatever the kernel answers.  `sendmmsg_all` and `sendmmsg_gso_all` move
one cursor over the datagrams; each call takes it past the datagrams it settles.
`Answered` is what the calls make of the datagrams: a call that takes some settles
these, a call that fails settles the first one with its error, unless that one was
coalesced with others, which then go out uncoalesced.

## Main results

* `sendmmsgLoop_sent`, `sendmmsgGsoLoop_sent`: the outcomes are those of the
  calls, and on the wire are exactly the datagrams with an `Ok` outcome, in order.
* `wgSendBatch_frame_by_frame`: the batch gives the results and the wire of
  `wg_send_parts` on each frame in turn, with these outcomes for `send_to`.
-/

namespace Mlvpn.Ports.SendBatch

open Protocol Sendmmsg

/-! ## What has been settled -/

/-- The datagrams with an `Ok` outcome. -/
def accepted : List Datagram → Outcomes → List Datagram
  | d :: dgs, .ok () :: outs => d :: accepted dgs outs
  | _ :: dgs, .error _ :: outs => accepted dgs outs
  | _, _ => []

theorem accepted_took (dgs : List Datagram) (outs : Outcomes) {m : Nat} (hle : m ≤ dgs.length) :
    accepted dgs (List.replicate m (.ok ()) ++ outs) =
      dgs.take m ++ accepted (dgs.drop m) outs := by
  induction m generalizing dgs with
  | zero => rfl
  | succ m ih =>
    cases dgs with
    | nil => cases hle
    | cons d dgs =>
      rw [List.replicate_succ, List.cons_append, accepted, ih dgs (Nat.le_of_succ_le_succ hle)]
      rfl

/-- The error of a call that took nothing; a count of zero is `WriteZero`. -/
def refusal : Answer → Option IoError
  | .failed error => some error
  | .accepted 0 => some .writeZero
  | .accepted (_ + 1) => none

/-- The first message of a coalescing call has several datagrams. -/
def Coalesces (dgs : List Datagram) : Prop :=
  1 < headLen (planGsoRuns (dgs.take SENDMMSG_MAX))

/-- The calls from `call` on, until `last`, settle the datagrams with the outcomes. -/
inductive Answered (answers : Nat → Answer) :
    Bool → Nat → List Datagram → Outcomes → Nat → Prop
  | done {gso : Bool} {call : Nat} : Answered answers gso call [] [] call
  | took {gso : Bool} {call last m : Nat} {dgs : List Datagram} {outs : Outcomes}
      (htook : refusal (answers call) = none) (hpos : 0 < m) (hle : m ≤ dgs.length)
      (hrest : Answered answers gso (call + 1) (dgs.drop m) outs last) :
      Answered answers gso call dgs (List.replicate m (.ok ()) ++ outs) last
  /-- The error of the call is the outcome of the first datagram, and of no other. -/
  | refused {gso : Bool} {call last : Nat} {d : Datagram} {dgs : List Datagram} {outs : Outcomes}
      {e : IoError} (hfailed : refusal (answers call) = some e)
      (hsingle : gso = true → ¬Coalesces (d :: dgs))
      (hrest : Answered answers gso (call + 1) dgs outs last) :
      Answered answers gso call (d :: dgs) (.error e :: outs) last
  /-- A coalesced message is rejected: the error is no outcome, and all go out uncoalesced. -/
  | rejected {call last : Nat} {dgs : List Datagram} {outs : Outcomes} {e : IoError}
      (hfailed : refusal (answers call) = some e) (hseveral : Coalesces dgs)
      (hrest : Answered answers false (call + 1) dgs outs last) :
      Answered answers true call dgs outs last

section

variable {answers : Nat → Answer} {gso : Bool} {call last : Nat} {dgs : List Datagram}
  {outs : Outcomes}

theorem Answered.one_each (h : Answered answers gso call dgs outs last) :
    outs.length = dgs.length := by
  induction h with
  | done => rfl
  | took _ _ hle _ ih =>
    rw [List.length_append, List.length_replicate, ih, List.length_drop]
    omega
  | refused _ _ _ ih => rw [List.length_cons, List.length_cons, ih]
  | rejected _ _ _ ih => exact ih

/-- At most one call for each datagram, and one more for a rejected message. -/
theorem Answered.calls_le (h : Answered answers gso call dgs outs last) :
    last ≤ call + dgs.length + gso.toNat := by
  induction h with
  | done => omega
  | took _ hpos hle _ ih =>
    rw [List.length_drop] at ih
    omega
  | refused _ _ _ ih =>
    rw [List.length_cons]
    omega
  | rejected _ _ _ ih =>
    rw [Bool.toNat_false] at ih
    rw [Bool.toNat_true]
    omega

end

/-- Between the kernels `before` and `after` the datagrams `dgs` were settled with the outcomes
`outs`. -/
structure Sent (gso : Bool) (dgs : List Datagram) (before after : Kernel)
    (outs : Outcomes) : Prop where
  answered : Answered before.answers gso before.calls dgs outs after.calls
  wire_eq : after.wire = before.wire ++ accepted dgs outs

theorem Sent.none (gso : Bool) (kernel : Kernel) : Sent gso [] kernel kernel [] where
  answered := .done
  wire_eq := (List.append_nil _).symm

/-! ## One call -/

section

variable {gso : Bool} {kernel mid after : Kernel} {messages : List (List Datagram)}
  {k : { k : Nat // 0 < k }} {e : IoError} {dgs : List Datagram} {outs : Outcomes}

theorem sendmmsg_error (hne : 0 < messages.length)
    (h : kernel.sendmmsg messages = (mid, .error e)) :
    refusal (kernel.answers kernel.calls) = some e ∧
      mid = { kernel with calls := kernel.calls + 1 } := by
  unfold Kernel.sendmmsg at h
  split at h
  case h_1 error hanswer =>
    cases h
    exact ⟨by rw [hanswer]; rfl, rfl⟩
  case h_2 taken hanswer =>
    split at h
    case isTrue => cases h
    case isFalse hzero =>
      cases h
      obtain rfl : taken = 0 := by omega
      exact ⟨by rw [hanswer]; rfl, rfl⟩

theorem sendmmsg_ok (h : kernel.sendmmsg messages = (mid, .ok k)) :
    refusal (kernel.answers kernel.calls) = Option.none ∧ k.1 ≤ messages.length ∧
      mid = { kernel with calls := kernel.calls + 1
                          wire := kernel.wire ++ (messages.take k).flatten } := by
  unfold Kernel.sendmmsg at h
  split at h
  case h_1 => cases h
  case h_2 taken hanswer =>
    split at h
    case isTrue hpos =>
      cases h
      obtain ⟨j, rfl⟩ : ∃ j, taken = j + 1 := ⟨taken - 1, by omega⟩
      exact ⟨by rw [hanswer]; rfl, Nat.min_le_right _ _, rfl⟩
    case isFalse => cases h

/-- A call takes a prefix of the datagrams. -/
theorem Sent.took {m : Nat} (hcall : kernel.sendmmsg messages = (mid, .ok k))
    (htaken : (messages.take k).flatten = dgs.take m) (hpos : 0 < m) (hle : m ≤ dgs.length)
    (hrest : Sent gso (dgs.drop m) mid after outs) :
    Sent gso dgs kernel after (List.replicate m (.ok ()) ++ outs) := by
  obtain ⟨htook, -, rfl⟩ := sendmmsg_ok hcall
  refine ⟨.took htook hpos hle hrest.answered, ?_⟩
  rw [hrest.wire_eq, accepted_took dgs outs hle, ← List.append_assoc, ← htaken]

theorem Sent.refused {d : Datagram} (hne : 0 < messages.length)
    (hcall : kernel.sendmmsg messages = (mid, .error e))
    (hsingle : gso = true → ¬Coalesces (d :: dgs)) (hrest : Sent gso dgs mid after outs) :
    Sent gso (d :: dgs) kernel after (.error e :: outs) := by
  obtain ⟨hfailed, rfl⟩ := sendmmsg_error hne hcall
  exact ⟨.refused hfailed hsingle hrest.answered, hrest.wire_eq⟩

/-- The plain retry starts where the rejected call stood: nothing of it left. -/
theorem Sent.rejected (hne : 0 < messages.length)
    (hcall : kernel.sendmmsg messages = (mid, .error e)) (hseveral : Coalesces dgs)
    (hrest : Sent false dgs mid after outs) : Sent true dgs kernel after outs := by
  obtain ⟨hfailed, rfl⟩ := sendmmsg_error hne hcall
  exact ⟨.rejected hfailed hseveral hrest.answered, hrest.wire_eq⟩

theorem rawSendmmsg_took (hcall : rawSendmmsg kernel dgs = (mid, .ok k))
    (hrest : Sent false (dgs.drop k) mid after outs) :
    Sent false dgs kernel after (List.replicate k (.ok ()) ++ outs) := by
  obtain ⟨-, hle, -⟩ := sendmmsg_ok hcall
  rw [List.length_map, List.length_take] at hle
  refine Sent.took hcall ?_ k.2 (by omega) hrest
  rw [← List.map_take, List.take_take, Nat.min_eq_left (by omega)]
  simp only [← List.flatMap_def, List.flatMap_singleton']

end

theorem planFrom_sum (i : Nat) (dgs : List Datagram) :
    ((planFrom i dgs).map GsoRun.len).sum = dgs.length := by
  fun_induction planFrom i dgs with
  | case1 i => rfl
  | case2 i d rest ih =>
    have := firstRun_bounds d rest
    rw [List.map_cons, List.sum_cons, ih, List.length_drop, List.length_cons]
    simp only
    omega

section

variable {kernel mid after : Kernel} {k : { k : Nat // 0 < k }} {dgs : List Datagram}
  {outs : Outcomes}

/-- A coalescing call takes whole runs of the window at the cursor. -/
theorem rawSendmmsgGso_took {window : List Datagram} (hwindow : window = dgs.take SENDMMSG_MAX)
    (hne : 0 < window.length)
    (hcall : rawSendmmsgGso kernel window (planGsoRuns window) = (mid, .ok k))
    (hrest : Sent true (dgs.drop (((planGsoRuns window).take k).map GsoRun.len).sum) mid after
      outs) :
    Sent true dgs kernel after
      (List.replicate (((planGsoRuns window).take k).map GsoRun.len).sum (.ok ()) ++ outs) := by
  obtain ⟨-, hle, -⟩ := sendmmsg_ok hcall
  rw [List.length_map, List.length_take] at hle
  have hsum : (((planGsoRuns window).take k).map GsoRun.len).sum ≤ window.length := by
    rw [← planFrom_sum 0 window]
    exact ((List.take_sublist k _).map GsoRun.len).sum_le_sum fun _ _ => Nat.zero_le _
  have hflat : (((planGsoRuns window).take k).map fun run => run.datagrams window).flatten =
      window.take (((planGsoRuns window).take k).map GsoRun.len).sum :=
    planFrom_prefix [] window k
  have hlength : window.length = min SENDMMSG_MAX dgs.length := by
    rw [hwindow, List.length_take]
  refine Sent.took hcall ?_ (planGsoRuns_take_pos window k hne k.2) (by omega) hrest
  rw [← List.map_take, List.take_take, Nat.min_eq_left (by omega)]
  generalize (((planGsoRuns window).take k).map GsoRun.len).sum = sent at hsum hflat ⊢
  rw [hflat, hwindow, List.take_take, Nat.min_eq_left (by omega)]

end

/-! ## The loops -/

theorem sendmmsgLoop_sent (kernel : Kernel) (dgs : List Datagram) (start : Nat) (out : Outcomes)
    (stats : SendmmsgStats) :
    ∃ rest, (sendmmsgLoop kernel dgs start out stats).2.1 = out ++ rest ∧
      Sent false (dgs.drop start) kernel (sendmmsgLoop kernel dgs start out stats).1 rest := by
  fun_induction sendmmsgLoop kernel dgs start out stats with
  | case1 kernel start out stats hstart want kernel' k hraw ih =>
    obtain ⟨rest, hout, hsent⟩ := ih
    refine ⟨List.replicate k (.ok ()) ++ rest, by rw [hout, List.append_assoc], ?_⟩
    rw [← List.drop_drop] at hsent
    exact rawSendmmsg_took hraw hsent
  | case2 kernel start out stats hstart kernel' e hraw ih =>
    obtain ⟨rest, hout, hsent⟩ := ih
    refine ⟨.error e :: rest, by rw [hout, List.append_assoc]; rfl, ?_⟩
    have hne : 0 < (((dgs.drop start).take SENDMMSG_MAX).map fun d => [d]).length := by
      simp only [List.length_map, List.length_take, List.length_drop, SENDMMSG_MAX]
      omega
    have hsettled := hsent.refused (d := dgs[start]) hne hraw fun h => absurd h Bool.false_ne_true
    rwa [← List.drop_eq_getElem_cons] at hsettled
  | case3 kernel start out stats hdone =>
    refine ⟨[], (List.append_nil _).symm, ?_⟩
    rw [List.drop_eq_nil_of_le (Nat.le_of_not_lt hdone)]
    exact Sent.none false kernel

theorem sendmmsgAll_sent (kernel : Kernel) (dgs : List Datagram) :
    Sent false dgs kernel (sendmmsgAll kernel dgs).1 (sendmmsgAll kernel dgs).2.1 := by
  obtain ⟨rest, hout, hsent⟩ := sendmmsgLoop_sent kernel dgs 0 [] .default
  rw [List.nil_append] at hout
  rw [List.drop_zero, ← hout] at hsent
  exact hsent

theorem sendmmsgGsoLoop_sent (kernel : Kernel) (dgs : List Datagram) (start : Nat)
    (out : Outcomes) (stats : SendmmsgStats) :
    ∃ rest, (sendmmsgGsoLoop kernel dgs start out stats).2.1 = out ++ rest ∧
      Sent true (dgs.drop start) kernel (sendmmsgGsoLoop kernel dgs start out stats).1 rest := by
  -- a window that is not empty gives a call with a message
  have hmessages : ∀ start < dgs.length,
      0 < ((dgs.drop start).take SENDMMSG_MAX).length ∧
        0 < (((planGsoRuns ((dgs.drop start).take SENDMMSG_MAX)).take SENDMMSG_MAX).map fun run =>
          run.datagrams ((dgs.drop start).take SENDMMSG_MAX)).length := by
    intro start hstart
    rw [List.drop_eq_getElem_cons hstart, planGsoRuns, SENDMMSG_MAX, List.take_succ_cons, planFrom]
    simp
  fun_induction sendmmsgGsoLoop kernel dgs start out stats with
  | case1 kernel start out stats hstart window runs kernel' k hraw sent ih =>
    obtain ⟨rest, hout, hsent⟩ := ih
    refine ⟨List.replicate sent (.ok ()) ++ rest, by rw [hout, List.append_assoc], ?_⟩
    rw [← List.drop_drop] at hsent
    exact rawSendmmsgGso_took rfl (hmessages start hstart).1 hraw hsent
  | case2 kernel start out stats hstart window runs kernel' e hraw hhead kernel'' rest s2 hall =>
    refine ⟨rest, rfl, ?_⟩
    have hsent := sendmmsgAll_sent kernel' (dgs.drop start)
    rw [hall] at hsent
    exact hsent.rejected (hmessages start hstart).2 hraw hhead
  | case3 kernel start out stats hstart window runs kernel' e hraw hhead ih =>
    obtain ⟨rest, hout, hsent⟩ := ih
    refine ⟨.error e :: rest, by rw [hout, List.append_assoc]; rfl, ?_⟩
    have hsettled := hsent.refused (d := dgs[start]) (hmessages start hstart).2 hraw fun _ => by
      rwa [← List.drop_eq_getElem_cons]
    rwa [← List.drop_eq_getElem_cons] at hsettled
  | case4 kernel start out stats hdone =>
    refine ⟨[], (List.append_nil _).symm, ?_⟩
    rw [List.drop_eq_nil_of_le (Nat.le_of_not_lt hdone)]
    exact Sent.none true kernel

theorem sendmmsgGsoAll_sent (kernel : Kernel) (dgs : List Datagram) :
    Sent true dgs kernel (sendmmsgGsoAll kernel dgs).1 (sendmmsgGsoAll kernel dgs).2.1 := by
  obtain ⟨rest, hout, hsent⟩ := sendmmsgGsoLoop_sent kernel dgs 0 [] .default
  rw [List.nil_append] at hout
  rw [List.drop_zero, ← hout] at hsent
  exact hsent

/-! ## From outcomes to verdicts -/

/-- What `send_to` answers for frames before `i` does not matter from `i` on. -/
theorem wgSendEach_congr (name : String) (remote : Bool) (i : Nat) (frames : List Encapsulated)
    (verdict verdict' : Nat → Except IoError Unit) (h : ∀ j, i ≤ j → verdict j = verdict' j) :
    wgSendEach name remote i frames verdict = wgSendEach name remote i frames verdict' := by
  induction frames generalizing i with
  | nil => rfl
  | cons frame frames ih =>
    simp only [wgSendEach]
    rw [h i (Nat.le_refl i), ih (i + 1) fun j hj => h j (by omega)]

/-- The datagrams from frame `i` on belong to these frames. -/
theorem encapsulateFrom_le (i : Nat) (frames : List Encapsulated) :
    ∀ d ∈ (encapsulateFrom i frames).2, i ≤ d.frame := by
  induction frames generalizing i with
  | nil => exact fun d hd => absurd hd List.not_mem_nil
  | cons frame frames ih =>
    intro d hd
    cases frame with
    | error e => exact Nat.le_of_succ_le (ih (i + 1) d hd)
    | ok sealed =>
      rcases List.mem_cons.mp hd with rfl | hd
      · exact Nat.le_refl i
      · exact Nat.le_of_succ_le (ih (i + 1) d hd)

section

variable (name : String) (done results : List (Except MlvpnError Bool)) (slot : List Nat)
  (bytes : Bytes) (carries : Bool) (o : Except IoError Unit) {dgs : List Datagram} {outs : Outcomes}

/-- An outcome turns its frame's result into what `wg_send_parts` returns. -/
theorem applyOutcomes_cons :
    applyOutcomes (done ++ .ok carries :: results) (done.length :: slot) (o :: outs) =
      applyOutcomes
        (done ++ [(wgSendParts name true done.length (.ok (bytes, carries)) o).1] ++ results)
        slot outs := by
  cases o with
  | ok => rw [List.append_assoc]; rfl
  | error e =>
    have hset : (done ++ .ok carries :: results).set done.length (.error (.io e)) =
        done ++ [.error (.io e)] ++ results := by simp
    exact congrArg (applyOutcomes · slot outs) hset

theorem accepted_cons (i : Nat) :
    accepted (⟨i, bytes⟩ :: dgs) (o :: outs) =
      (wgSendParts name true i (.ok (bytes, carries)) o).2 ++ accepted dgs outs := by
  cases o with
  | ok => rfl
  | error e => rfl

end

/-- The datagrams' outcomes, read as the answers of `send_to`, give the batch's
results and its wire.  `done` holds the results of the frames before. -/
theorem exists_verdict (name : String) (done : List (Except MlvpnError Bool))
    (frames : List Encapsulated) (outs : Outcomes)
    (hlen : outs.length = (encapsulateFrom done.length frames).2.length) :
    ∃ verdict,
      applyOutcomes (done ++ (encapsulateFrom done.length frames).1)
          ((encapsulateFrom done.length frames).2.map Datagram.frame) outs =
        done ++ (wgSendEach name true done.length frames verdict).1 ∧
      accepted (encapsulateFrom done.length frames).2 outs =
        (wgSendEach name true done.length frames verdict).2 ∧
      (encapsulateFrom done.length frames).2.map (fun d => verdict d.frame) = outs := by
  induction frames generalizing done outs with
  | nil =>
    obtain rfl := List.length_eq_zero_iff.mp hlen
    exact ⟨fun _ => .ok (), rfl, rfl, rfl⟩
  | cons frame frames ih =>
    have hnext : ∀ r : Except MlvpnError Bool, (done ++ [r]).length = done.length + 1 := by
      simp
    cases frame with
    | error e =>
      simp only [encapsulateFrom] at hlen ⊢
      obtain ⟨verdict, hresults, hwire, houts⟩ := ih (done ++ [.error e]) outs (by rwa [hnext])
      rw [hnext, List.append_assoc, List.append_assoc] at hresults
      rw [hnext] at hwire houts
      exact ⟨verdict, hresults, hwire, houts⟩
    | ok sealed =>
      obtain ⟨bytes, carries⟩ := sealed
      simp only [encapsulateFrom, List.length_cons] at hlen ⊢
      cases outs with
      | nil => simp at hlen
      | cons o outs =>
        obtain ⟨verdict, hresults, hwire, houts⟩ := ih
          (done ++ [(wgSendParts name true done.length (.ok (bytes, carries)) o).1]) outs
          (by rw [hnext]; exact Nat.succ.inj hlen)
        rw [hnext] at hresults hwire houts
        -- The frame's own answer is `o`; those after it come from the rest.
        have hupdate : wgSendEach name true (done.length + 1) frames
              (Function.update verdict done.length o) =
            wgSendEach name true (done.length + 1) frames verdict := by
          refine wgSendEach_congr name true _ frames _ _ fun j hj => ?_
          exact Function.update_of_ne (by omega) _ _
        refine ⟨Function.update verdict done.length o, ?_, ?_, ?_⟩
        · rw [List.map_cons, applyOutcomes_cons name done _ _ bytes, hresults]
          simp only [wgSendEach, hupdate, Function.update_self, List.append_assoc,
            List.singleton_append]
        · rw [accepted_cons name bytes carries, hwire]
          simp only [wgSendEach, hupdate, Function.update_self]
        · rw [List.map_cons, Function.update_self, ← houts]
          refine congrArg (o :: ·) (List.map_congr_left fun d hd => ?_)
          have := encapsulateFrom_le _ frames d hd
          exact Function.update_of_ne (by omega) _ _

/-! ## Frame by frame -/

/-- Without a remote address every frame fails and nothing leaves. -/
theorem wgSendEach_noRemote (name : String) (i : Nat) (frames : List Encapsulated)
    (verdict : Nat → Except IoError Unit) :
    wgSendEach name false i frames verdict =
      (List.replicate frames.length (.error (noRemote name)), []) := by
  induction frames generalizing i with
  | nil => rfl
  | cons frame frames ih =>
    simp only [wgSendEach, ih (i + 1)]
    rfl

theorem wgSendEach_length (name : String) (remote : Bool) (i : Nat) (frames : List Encapsulated)
    (verdict : Nat → Except IoError Unit) :
    (wgSendEach name remote i frames verdict).1.length = frames.length := by
  induction frames generalizing i with
  | nil => rfl
  | cons frame frames ih => simp only [wgSendEach, List.length_cons, ih (i + 1)]

/-- `wg_send_parts` succeeds with its datagram on the wire, or fails with
nothing there. -/
theorem wgSendParts_cases (name : String) (remote : Bool) (i : Nat) (frame : Encapsulated)
    (verdict : Except IoError Unit) :
    (∃ bytes carries, frame = .ok (bytes, carries) ∧
      wgSendParts name remote i frame verdict = (.ok carries, [⟨i, bytes⟩])) ∨
    ∃ e, wgSendParts name remote i frame verdict = (.error e, []) := by
  cases remote with
  | false => exact .inr ⟨noRemote name, rfl⟩
  | true =>
    cases frame with
    | error e => exact .inr ⟨e, rfl⟩
    | ok sealed =>
      obtain ⟨bytes, carries⟩ := sealed
      cases verdict with
      | ok => exact .inl ⟨bytes, carries, rfl, rfl⟩
      | error e => exact .inr ⟨.io e, rfl⟩

/-- What left belongs to the frames that were sent. -/
theorem wgSendEach_le (name : String) (remote : Bool) (i : Nat) (frames : List Encapsulated)
    (verdict : Nat → Except IoError Unit) :
    ∀ d ∈ (wgSendEach name remote i frames verdict).2, i ≤ d.frame := by
  induction frames generalizing i with
  | nil => exact fun d hd => absurd hd List.not_mem_nil
  | cons frame frames ih =>
    intro d hd
    simp only [wgSendEach, List.mem_append] at hd
    rcases hd with hd | hd
    · rcases wgSendParts_cases name remote i frame (verdict i) with
        ⟨bytes, carries, _, heq⟩ | ⟨e, heq⟩
      · rw [heq, List.mem_singleton] at hd
        rw [hd]
      · rw [heq] at hd
        exact absurd hd List.not_mem_nil
    · exact Nat.le_of_succ_le (ih (i + 1) d hd)

theorem wgSendEach_pairwise (name : String) (remote : Bool) (i : Nat)
    (frames : List Encapsulated) (verdict : Nat → Except IoError Unit) :
    (wgSendEach name remote i frames verdict).2.Pairwise fun a b => a.frame < b.frame := by
  induction frames generalizing i with
  | nil => exact List.Pairwise.nil
  | cons frame frames ih =>
    simp only [wgSendEach]
    rcases wgSendParts_cases name remote i frame (verdict i) with
      ⟨bytes, carries, _, heq⟩ | ⟨e, heq⟩
    · rw [heq]
      exact List.pairwise_cons.mpr
        ⟨wgSendEach_le name remote (i + 1) frames verdict, ih (i + 1)⟩
    · rw [heq]
      exact ih (i + 1)

/-- The datagrams on the wire that belong to frame `i`. -/
def departed (i : Nat) (wire : List Datagram) : List Datagram :=
  wire.filter fun d => d.frame = i

theorem departed_append (i : Nat) (wire wire' : List Datagram) :
    departed i (wire ++ wire') = departed i wire ++ departed i wire' :=
  List.filter_append ..

/-- The result of a frame and what of it is on the wire. -/
def Settled (frame : Encapsulated) (i : Nat) (result : Except MlvpnError Bool)
    (wire : List Datagram) : Prop :=
  match result with
  | .ok carries => ∃ bytes, frame = .ok (bytes, carries) ∧ departed i wire = [⟨i, bytes⟩]
  | .error _ => departed i wire = []

/-- Only the frame's own datagrams matter. -/
theorem Settled.congr {frame : Encapsulated} {i : Nat} {result : Except MlvpnError Bool}
    {wire wire' : List Datagram} (h : Settled frame i result wire)
    (hdeparted : departed i wire' = departed i wire) : Settled frame i result wire' := by
  cases result with
  | ok carries =>
    obtain ⟨bytes, hok, honce⟩ := h
    exact ⟨bytes, hok, hdeparted.trans honce⟩
  | error e => exact hdeparted.trans h

theorem wgSendParts_settled (name : String) (remote : Bool) (i : Nat) (frame : Encapsulated)
    (verdict : Except IoError Unit) :
    Settled frame i (wgSendParts name remote i frame verdict).1
      (wgSendParts name remote i frame verdict).2 := by
  rcases wgSendParts_cases name remote i frame verdict with
    ⟨bytes, carries, hok, heq⟩ | ⟨e, heq⟩
  · rw [heq]
    exact ⟨bytes, hok, by simp [departed]⟩
  · rw [heq]
    rfl

theorem wgSendEach_settled (name : String) (remote : Bool) (i : Nat)
    (frames : List Encapsulated) (verdict : Nat → Except IoError Unit) (j : Nat)
    {frame : Encapsulated} {result : Except MlvpnError Bool} (hframe : frames[j]? = some frame)
    (hresult : (wgSendEach name remote i frames verdict).1[j]? = some result) :
    Settled frame (i + j) result (wgSendEach name remote i frames verdict).2 := by
  induction frames generalizing i j with
  | nil => simp at hframe
  | cons f frames ih =>
    have hlater : ∀ d ∈ (wgSendEach name remote (i + 1) frames verdict).2, i + 1 ≤ d.frame :=
      wgSendEach_le name remote (i + 1) frames verdict
    simp only [wgSendEach] at hresult ⊢
    cases j with
    | zero =>
      -- No later frame leaves a datagram of this one.
      have hnone : departed i (wgSendEach name remote (i + 1) frames verdict).2 = [] := by
        refine List.filter_eq_nil_iff.mpr fun d hd => ?_
        have := hlater d hd
        simp only [decide_eq_true_eq]
        omega
      obtain rfl : f = frame := by simpa using hframe
      obtain rfl : (wgSendParts name remote i f (verdict i)).1 = result := by
        simpa using hresult
      refine (wgSendParts_settled name remote i f (verdict i)).congr ?_
      rw [Nat.add_zero, departed_append, hnone, List.append_nil]
    | succ j =>
      have hrest := ih (i + 1) j hframe hresult
      -- Nor does this frame leave one of a later frame.
      have hnone : departed (i + 1 + j) (wgSendParts name remote i f (verdict i)).2 = [] := by
        rcases wgSendParts_cases name remote i f (verdict i) with
          ⟨bytes, carries, _, heq⟩ | ⟨e, heq⟩
        · rw [heq]
          simp only [departed, List.filter_eq_nil_iff, List.mem_singleton, forall_eq,
            decide_eq_true_eq]
          omega
        · rw [heq]
          rfl
      rw [show i + (j + 1) = i + 1 + j by omega]
      refine hrest.congr ?_
      rw [departed_append, hnone, List.nil_append]

/-! ## The batch -/

/-- The contract of a batch: its results and what it put on the wire are those
of `wg_send_parts` on each frame in turn, where `send_to` answers what the calls
made of the frame's datagram.  Without a remote address there is no call. -/
structure FrameByFrame (name : String) (remote gso : Bool) (frames : List Encapsulated)
    (before after : Kernel) (results : List (Except MlvpnError Bool)) (wire : List Datagram) :
    Prop where
  sequential : ∃ verdict, wgSendEach name remote 0 frames verdict = (results, wire) ∧
    if remote then
      Answered before.answers gso before.calls (encapsulateFrom 0 frames).2
        ((encapsulateFrom 0 frames).2.map fun d => verdict d.frame) after.calls
    else after.calls = before.calls
  one_each : results.length = frames.length
  settled : ∀ i frame result, frames[i]? = some frame → results[i]? = some result →
    Settled frame i result wire
  in_order : wire.Pairwise fun a b => a.frame < b.frame

theorem frameByFrame_wgSendEach (name : String) (remote gso : Bool) (frames : List Encapsulated)
    (verdict : Nat → Except IoError Unit) {before after : Kernel}
    (hanswered : if remote then
        Answered before.answers gso before.calls (encapsulateFrom 0 frames).2
          ((encapsulateFrom 0 frames).2.map fun d => verdict d.frame) after.calls
      else after.calls = before.calls) :
    FrameByFrame name remote gso frames before after
      (wgSendEach name remote 0 frames verdict).1 (wgSendEach name remote 0 frames verdict).2 where
  sequential := ⟨verdict, rfl, hanswered⟩
  one_each := wgSendEach_length name remote 0 frames verdict
  settled := fun i frame result hframe hresult => by
    have hsettled := wgSendEach_settled name remote 0 frames verdict i hframe hresult
    rwa [Nat.zero_add] at hsettled
  in_order := wgSendEach_pairwise name remote 0 frames verdict

theorem encapsulateFrom_length_le (i : Nat) (frames : List Encapsulated) :
    (encapsulateFrom i frames).2.length ≤ frames.length := by
  induction frames generalizing i with
  | nil => exact Nat.le_refl _
  | cons frame frames ih =>
    have := ih (i + 1)
    cases frame with
    | error e =>
      simp only [encapsulateFrom, List.length_cons]
      omega
    | ok sealed =>
      simp only [encapsulateFrom, List.length_cons]
      omega

/-- A batch is its frames sent one by one, whatever is encapsulated and whatever
the kernel answers, in at most one call per frame and one more. -/
theorem wgSendBatch_frame_by_frame (name : String) (remote gso : Bool)
    (frames : List Encapsulated) (kernel : Kernel) :
    ∃ wire,
      (wgSendBatch name remote gso frames kernel).1.wire = kernel.wire ++ wire ∧
      FrameByFrame name remote gso frames kernel (wgSendBatch name remote gso frames kernel).1
        (wgSendBatch name remote gso frames kernel).2.1 wire ∧
      (wgSendBatch name remote gso frames kernel).1.calls ≤
        kernel.calls + frames.length + 1 := by
  cases remote with
  | false =>
      have hcalls : kernel.calls ≤ kernel.calls + frames.length + 1 := by omega
      refine ⟨[], (List.append_nil _).symm, ?_, hcalls⟩
      have heach : FrameByFrame name false gso frames kernel kernel _ _ :=
        frameByFrame_wgSendEach name false gso frames (fun _ => .ok ()) rfl
      rw [wgSendEach_noRemote] at heach
      exact heach
  | true =>
      -- Either loop settles the datagrams; the outcomes are the verdicts.
      have hsent : ∀ sent : Kernel × Outcomes × SendmmsgStats,
          Sent gso (encapsulateFrom 0 frames).2 kernel sent.1 sent.2.1 →
          ∃ wire, sent.1.wire = kernel.wire ++ wire ∧
            FrameByFrame name true gso frames kernel sent.1
              (applyOutcomes (encapsulateFrom 0 frames).1
                ((encapsulateFrom 0 frames).2.map Datagram.frame) sent.2.1) wire ∧
            sent.1.calls ≤ kernel.calls + frames.length + 1 := by
        intro sent h
        obtain ⟨verdict, hresults, hwire, houts⟩ :=
          exists_verdict name [] frames sent.2.1 h.answered.one_each
        simp only [List.nil_append, List.length_nil] at hresults hwire houts
        have hcalls := h.answered.calls_le
        have hle := encapsulateFrom_length_le 0 frames
        have hone := Bool.toNat_le gso
        refine ⟨(wgSendEach name true 0 frames verdict).2, by rw [h.wire_eq, hwire], ?_, by omega⟩
        rw [hresults]
        exact frameByFrame_wgSendEach name true gso frames verdict (houts.symm ▸ h.answered)
      cases gso with
      | false => exact hsent _ (sendmmsgAll_sent kernel (encapsulateFrom 0 frames).2)
      | true => exact hsent _ (sendmmsgGsoAll_sent kernel (encapsulateFrom 0 frames).2)

end Mlvpn.Ports.SendBatch
