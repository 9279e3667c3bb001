import Mlvpn.Ports.Protocol

/-!
# Sending a batch

Port of `link::plan_gso_runs`, `sendmmsg_all`, `sendmmsg_gso_all` and
`LinkHandle::wg_send_batch`.  A batch of frames is encapsulated in order and the
datagrams go out in as few `sendmmsg(2)` calls as the kernel's answers allow,
optionally with runs of equal-sized datagrams coalesced into one message.

The kernel is an oracle: one answer per call, after any would-block retries.  It
accepts some of the leading messages it was given, or fails.  The log of what it
accepted is part of the state; a datagram is logged with the index of the frame
it came from, which the code keeps in `slot`.
-/

namespace Mlvpn.Ports.Sendmmsg

open Protocol

def GSO_MAX_SEGS : Nat := 64
def GSO_MAX_BYTES : Nat := 65000
def SENDMMSG_MAX : Nat := 64

/-- An encapsulated frame; `frame` is the frame's index in its batch. -/
structure Datagram where
  frame : Nat
  bytes : Bytes
deriving Repr, DecidableEq

def Datagram.len (d : Datagram) : Nat := d.bytes.length

/-! ## The kernel -/

/-- What one `sendmmsg(2)` call answers. -/
inductive Answer where
  | accepted (messages : Nat)
  | failed (error : IoError)
deriving Repr, DecidableEq

/-- The answers to come, by call, the number of calls made, and the datagrams
accepted so far, in the order they left. -/
structure Kernel where
  answers : Nat → Answer
  calls : Nat
  wire : List Datagram

/-- One call with the given messages.  A return value of zero is `WriteZero`, so
an accepted count is positive. -/
def Kernel.sendmmsg (kernel : Kernel) (messages : List (List Datagram)) :
    Kernel × Except IoError { k : Nat // 0 < k } :=
  match kernel.answers kernel.calls with
  | .failed error => ({ kernel with calls := kernel.calls + 1 }, .error error)
  | .accepted k =>
      if h : 0 < min k messages.length then
        ({ kernel with
            calls := kernel.calls + 1
            wire := kernel.wire ++ (messages.take (min k messages.length)).flatten },
          .ok ⟨min k messages.length, h⟩)
      else ({ kernel with calls := kernel.calls + 1 }, .error .writeZero)

structure SendmmsgStats where
  calls : Nat
  partialCalls : Nat
  gsoRuns : Nat
  gsoSegments : Nat
  gsoDisabled : Bool
deriving Repr, DecidableEq

def SendmmsgStats.default : SendmmsgStats := ⟨0, 0, 0, 0, false⟩

/-- The counters after one more call; `short` if the kernel took fewer messages
than it was given, without an error. -/
def SendmmsgStats.called (stats : SendmmsgStats) (short : Bool) : SendmmsgStats :=
  { stats with
    calls := stats.calls + 1
    partialCalls := if short then stats.partialCalls + 1 else stats.partialCalls }

/-- One outcome per datagram. -/
abbrev Outcomes := List (Except IoError Unit)

/-! ## Plain `sendmmsg` -/

/-- One message per datagram, at most `SENDMMSG_MAX` of them. -/
def rawSendmmsg (kernel : Kernel) (dgs : List Datagram) :
    Kernel × Except IoError { k : Nat // 0 < k } :=
  kernel.sendmmsg ((dgs.take SENDMMSG_MAX).map fun d => [d])

/-- The loop of `sendmmsg_all`, at cursor `start`. -/
def sendmmsgLoop (kernel : Kernel) (dgs : List Datagram) (start : Nat) (out : Outcomes)
    (stats : SendmmsgStats) : Kernel × Outcomes × SendmmsgStats :=
  if start < dgs.length then
    let want := min (dgs.length - start) SENDMMSG_MAX
    match rawSendmmsg kernel (dgs.drop start) with
    | (kernel, .ok k) =>
        sendmmsgLoop kernel dgs (start + k) (out ++ List.replicate k (.ok ()))
          (stats.called (decide (k < want)))
    | (kernel, .error e) =>
        sendmmsgLoop kernel dgs (start + 1) (out ++ [.error e]) (stats.called false)
  else (kernel, out, stats)
termination_by dgs.length - start
decreasing_by
  · have := k.2
    omega
  · omega

def sendmmsgAll (kernel : Kernel) (dgs : List Datagram) : Kernel × Outcomes × SendmmsgStats :=
  sendmmsgLoop kernel dgs 0 [] .default

/-! ## Planning coalesced runs -/

/-- A contiguous run of datagrams sent as one message. -/
structure GsoRun where
  start : Nat
  len : Nat
deriving Repr, DecidableEq

/-- The inner loop of `plan_gso_runs`: how long a run of size `size` gets that
has `len` datagrams and `bytes` bytes and may go on with the given ones. -/
def runLen (size : Nat) : List Datagram → Nat → Nat → Nat
  | [], len, _ => len
  | d :: rest, len, bytes =>
      if len < GSO_MAX_SEGS then
        if d.len = size ∧ bytes + d.len ≤ GSO_MAX_BYTES then
          runLen size rest (len + 1) (bytes + d.len)
        -- A shorter datagram may end a run.
        else if 0 < d.len ∧ d.len < size ∧ bytes + d.len ≤ GSO_MAX_BYTES then len + 1
        else len
      else len

/-- The length of the run that starts with `d`. -/
def firstRun (d : Datagram) (rest : List Datagram) : Nat :=
  if 0 < d.len ∧ d.len ≤ 65535 then runLen d.len rest 1 d.len else 1

/-- The outer loop of `plan_gso_runs`, at index `i`. -/
def planFrom (i : Nat) : List Datagram → List GsoRun
  | [] => []
  | d :: rest =>
      { start := i, len := firstRun d rest } ::
        planFrom (i + firstRun d rest) (rest.drop (firstRun d rest - 1))
termination_by dgs => dgs.length
decreasing_by
  simp only [List.length_drop, List.length_cons]
  omega

def planGsoRuns (dgs : List Datagram) : List GsoRun := planFrom 0 dgs

/-- The datagrams of a run. -/
def GsoRun.datagrams (run : GsoRun) (dgs : List Datagram) : List Datagram :=
  (dgs.drop run.start).take run.len

theorem runLen_bounds (size : Nat) (rest : List Datagram) (len bytes : Nat) :
    len ≤ runLen size rest len bytes ∧ runLen size rest len bytes ≤ len + rest.length := by
  induction rest generalizing len bytes with
  | nil => exact ⟨le_refl _, le_refl _⟩
  | cons d rest ih =>
    have hnext := ih (len + 1) (bytes + d.len)
    simp only [runLen, List.length_cons]
    split
    · split
      · omega
      · split <;> omega
    · omega

theorem firstRun_bounds (d : Datagram) (rest : List Datagram) :
    1 ≤ firstRun d rest ∧ firstRun d rest ≤ 1 + rest.length := by
  unfold firstRun
  split
  · exact runLen_bounds d.len rest 1 d.len
  · omega

/-- The first runs carry a prefix of the datagrams. -/
theorem planFrom_prefix (pre dgs : List Datagram) (k : Nat) :
    (((planFrom pre.length dgs).take k).map fun run => run.datagrams (pre ++ dgs)).flatten =
      dgs.take (((planFrom pre.length dgs).take k).map GsoRun.len).sum := by
  induction hlen : dgs.length using Nat.strongRecOn generalizing pre dgs k with
  | _ n ih =>
    cases dgs with
    | nil => simp [planFrom]
    | cons d rest =>
      cases k with
      | zero => simp
      | succ k =>
        obtain ⟨hpos, hle⟩ := firstRun_bounds d rest
        generalize hrun : firstRun d rest = m at hpos hle
        -- The rest of the plan starts after the first run's datagrams.
        have hsplit : (d :: rest).take m ++ rest.drop (m - 1) = d :: rest := by
          obtain ⟨j, rfl⟩ : ∃ j, m = j + 1 := ⟨m - 1, by omega⟩
          rw [List.take_succ_cons, Nat.add_sub_cancel, List.cons_append,
            List.take_append_drop]
        have hpre : (pre ++ (d :: rest).take m).length = pre.length + m := by
          rw [List.length_append, List.length_take, List.length_cons]
          omega
        have hnext := ih (rest.drop (m - 1)).length
          (by simp only [List.length_drop, List.length_cons] at hlen ⊢; omega)
          (pre ++ (d :: rest).take m) (rest.drop (m - 1)) k rfl
        rw [hpre, List.append_assoc, hsplit] at hnext
        have hdrop : (d :: rest).drop m = rest.drop (m - 1) := by
          obtain ⟨j, rfl⟩ : ∃ j, m = j + 1 := ⟨m - 1, by omega⟩
          rfl
        rw [planFrom, hrun, List.take_succ_cons, List.map_cons, List.map_cons,
          List.flatten_cons, List.sum_cons, hnext]
        simp only [GsoRun.datagrams, List.drop_left]
        rw [← hdrop, ← List.take_add]

/-- A plan of something begins with a run of something. -/
theorem planGsoRuns_take_pos (dgs : List Datagram) (k : Nat) (hne : 0 < dgs.length)
    (hk : 0 < k) : 0 < (((planGsoRuns dgs).take k).map GsoRun.len).sum := by
  cases dgs with
  | nil => exact absurd hne (by simp)
  | cons d rest =>
    obtain ⟨j, rfl⟩ : ∃ j, k = j + 1 := ⟨k - 1, by omega⟩
    have hpos := (firstRun_bounds d rest).1
    rw [planGsoRuns, planFrom, List.take_succ_cons, List.map_cons, List.sum_cons]
    simp only
    omega

/-! ## `sendmmsg` with coalesced runs -/

/-- One message per run, at most `SENDMMSG_MAX` of them. -/
def rawSendmmsgGso (kernel : Kernel) (dgs : List Datagram) (runs : List GsoRun) :
    Kernel × Except IoError { k : Nat // 0 < k } :=
  kernel.sendmmsg ((runs.take SENDMMSG_MAX).map fun run => run.datagrams dgs)

/-- The length of the first run. -/
def headLen (runs : List GsoRun) : Nat := (runs.head?.map GsoRun.len).getD 0

/-- The counters after a call that had its first runs, `sent`, accepted. -/
def SendmmsgStats.gsoAccepted (stats : SendmmsgStats) (sent : List GsoRun) : SendmmsgStats :=
  sent.foldl (fun stats run =>
      if 1 < run.len then
        { stats with
          gsoRuns := stats.gsoRuns + 1
          gsoSegments := stats.gsoSegments + run.len }
      else stats)
    stats

/-- The loop of `sendmmsg_gso_all`, at cursor `start`. -/
def sendmmsgGsoLoop (kernel : Kernel) (dgs : List Datagram) (start : Nat) (out : Outcomes)
    (stats : SendmmsgStats) : Kernel × Outcomes × SendmmsgStats :=
  if start < dgs.length then
    let window := (dgs.drop start).take SENDMMSG_MAX
    let runs := planGsoRuns window
    match rawSendmmsgGso kernel window runs with
    | (kernel, .ok k) =>
        let sent := ((runs.take k).map GsoRun.len).sum
        sendmmsgGsoLoop kernel dgs (start + sent) (out ++ List.replicate sent (.ok ()))
          ((stats.called (decide (k < runs.length))).gsoAccepted (runs.take k))
    | (kernel, .error e) =>
        -- A rejected coalesced message: the rest goes out uncoalesced.
        if 1 < headLen runs then
          match sendmmsgAll kernel (dgs.drop start) with
          | (kernel, rest, s2) =>
              (kernel, out ++ rest,
                { stats with
                  calls := stats.calls + 1 + s2.calls
                  partialCalls := stats.partialCalls + s2.partialCalls
                  gsoDisabled := true })
        else
          sendmmsgGsoLoop kernel dgs (start + 1) (out ++ [.error e]) (stats.called false)
  else (kernel, out, stats)
termination_by dgs.length - start
decreasing_by
  · have hpos := planGsoRuns_take_pos ((dgs.drop start).take SENDMMSG_MAX) k
      (by simp only [List.length_take, List.length_drop, SENDMMSG_MAX]; omega) k.2
    omega
  · omega

def sendmmsgGsoAll (kernel : Kernel) (dgs : List Datagram) : Kernel × Outcomes × SendmmsgStats :=
  sendmmsgGsoLoop kernel dgs 0 [] .default

/-! ## The batch -/

/-- What encapsulating a frame gives: a datagram and whether it carries the
frame (a handshake datagram does not), or an error. -/
abbrev Encapsulated := Except MlvpnError (Bytes × Bool)

/-- The error of a send on a link without a remote address. -/
def noRemote (name : String) : MlvpnError :=
  .protocol s!"wg_send: link '{name}' has no remote address to send to yet"

/-- The encapsulation loop, from frame `i` on: the results so far and the
datagrams.  A datagram's `frame` is its `slot`. -/
def encapsulateFrom (i : Nat) :
    List Encapsulated → List (Except MlvpnError Bool) × List Datagram
  | [] => ([], [])
  | .ok (bytes, carries) :: frames =>
      let (results, dgs) := encapsulateFrom (i + 1) frames
      (.ok carries :: results, ⟨i, bytes⟩ :: dgs)
  | .error e :: frames =>
      let (results, dgs) := encapsulateFrom (i + 1) frames
      (.error e :: results, dgs)

/-- The last loop: a datagram the kernel refused fails its frame. -/
def applyOutcomes (results : List (Except MlvpnError Bool)) (slot : List Nat)
    (outcomes : Outcomes) : List (Except MlvpnError Bool) :=
  (slot.zip outcomes).foldl (fun results entry =>
      match entry.2 with
      | .ok () => results
      | .error e => results.set entry.1 (.error (.io e)))
    results

/-- `wg_send_batch`: the kernel afterwards, one result per frame, and the
counters. -/
def wgSendBatch (name : String) (remote gso : Bool) (frames : List Encapsulated)
    (kernel : Kernel) : Kernel × List (Except MlvpnError Bool) × SendmmsgStats :=
  if remote then
    let (results, dgs) := encapsulateFrom 0 frames
    let (kernel, outcomes, stats) :=
      if gso then sendmmsgGsoAll kernel dgs else sendmmsgAll kernel dgs
    (kernel, applyOutcomes results (dgs.map Datagram.frame) outcomes, stats)
  else (kernel, List.replicate frames.length (.error (noRemote name)), .default)

/-! ## Sending frame by frame -/

/-- `wg_send_parts` on frame `i`, where `verdict` is what `send_to` answers if it
is called: the result, and what leaves. -/
def wgSendParts (name : String) (remote : Bool) (i : Nat) (frame : Encapsulated)
    (verdict : Except IoError Unit) : Except MlvpnError Bool × List Datagram :=
  if remote then
    match frame with
    | .error e => (.error e, [])
    | .ok (bytes, carries) =>
        match verdict with
        | .ok () => (.ok carries, [⟨i, bytes⟩])
        | .error e => (.error (.io e), [])
  else (.error (noRemote name), [])

/-- `wg_send_parts` on each frame in turn, from frame `i` on. -/
def wgSendEach (name : String) (remote : Bool) (i : Nat) :
    List Encapsulated → (Nat → Except IoError Unit) →
      List (Except MlvpnError Bool) × List Datagram
  | [], _ => ([], [])
  | frame :: frames, verdict =>
      let (result, left) := wgSendParts name remote i frame (verdict i)
      let (results, wire) := wgSendEach name remote (i + 1) frames verdict
      (result :: results, left ++ wire)

end Mlvpn.Ports.Sendmmsg
