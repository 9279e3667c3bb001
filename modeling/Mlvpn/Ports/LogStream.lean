import Mlvpn.Verified.AssocMap
import Mlvpn.Verified.Mealy
import Mlvpn.Verified.RingCursor

/-!
# Streaming the log

Port of `logbuf::LogRing` and of the cursor that `control::serve_client` keeps into it.  A push
takes its number first and appends its line under the lock later, so that pushes of several
threads can reach the ring in another order than that of their numbers.  A run is a list of
half-pushes and of polls of one client.

## Main results

* `each_line_once`: where the lines reach the ring in the order of their numbers, and at most as
  many between two polls as the ring holds, the client gets every line once, with the first poll
  after it was appended.
* `line_skipped_or_repeated`: two threads in the other order, with a line that the client never
  gets, and with one that it gets twice.
-/

namespace Mlvpn.Ports.LogStream

open Verified RingCursor

def LOG_RING_CAPACITY : Nat := 500

structure LogEntry where
  seq : UInt64
  unixTsMs : UInt64
  level : String
  target : Option String
  message : String
deriving Repr, DecidableEq

/-- The ring, the pushes that have taken a number and not yet the lock, by thread, and the
client's `last_log_seq`. -/
structure LogRing where
  entries : List LogEntry
  nextSeq : UInt64
  pushing : AList fun _ : Nat => LogEntry
  lastLogSeq : UInt64

/-- Numbers start at 1, and a client that has seen nothing is at 0. -/
def LogRing.new : LogRing := ⟨[], 1, ∅, 0⟩

inductive Call where
  /-- A thread begins a push: it takes the next number and reads the clock. -/
  | take (thread : Nat) (unixTsMs : UInt64) (level : String) (target : Option String)
      (message : String)
  /-- The thread has the lock and appends its line. -/
  | append (thread : Nat)
  | poll
deriving Repr, DecidableEq

/-- What a call does, for the record. -/
inductive Effect where
  | nothing
  | appended (line : LogEntry)
  | snapshot (newLogLines : List LogEntry)
deriving Repr, DecidableEq

namespace LogRing

/-- The first half of `push`. -/
def take (self : LogRing) (thread : Nat) (unixTsMs : UInt64) (level : String)
    (target : Option String) (message : String) : LogRing :=
  { self with
    nextSeq := self.nextSeq + 1
    pushing := self.pushing.insert thread ⟨self.nextSeq, unixTsMs, level, target, message⟩ }

/-- The second half of `push`, under the lock. -/
def append (self : LogRing) (thread : Nat) (line : LogEntry) : LogRing :=
  { self with
    entries := pushBounded LOG_RING_CAPACITY self.entries line
    pushing := self.pushing.erase thread }

def entriesSince (self : LogRing) (since : UInt64) : List LogEntry :=
  self.entries.filter fun e => e.seq > since

end LogRing

/-- A thread is in one push at a time, and the lines of `build_snapshot` for the log. -/
def step (self : LogRing) : Call → LogRing × Effect
  | .take thread unixTsMs level target message =>
      if thread ∈ self.pushing then (self, .nothing)
      else (self.take thread unixTsMs level target message, .nothing)
  | .append thread =>
      match self.pushing.lookup thread with
      | none => (self, .nothing)
      | some line => (self.append thread line, .appended line)
  | .poll =>
      let newLogLines := self.entriesSince self.lastLogSeq
      let newLastLogSeq := (newLogLines.getLast?.map LogEntry.seq).getD self.lastLogSeq
      ({ self with lastLogSeq := newLastLogSeq }, .snapshot newLogLines)

/-! ## What the client gets -/

abbrev Log := List (Call × Effect)

def Effect.line : Effect → List LogEntry
  | .appended line => [line]
  | _ => []

def Effect.lines : Effect → List LogEntry
  | .snapshot newLogLines => newLogLines
  | _ => []

/-- The lines in the order in which they were appended. -/
def appended (h : Log) : List LogEntry := h.flatMap fun e => e.2.line

/-- The client's snapshots, one after the other. -/
def received (h : Log) : List LogEntry := h.flatMap fun e => e.2.lines

/-- The lines appended since the last poll. -/
def fresh (h : Log) : List LogEntry :=
  h.foldl (fun acc e => match e.2 with
    | .snapshot _ => []
    | effect => acc ++ effect.line) []

theorem appended_snoc (h : Log) (c : Call) (effect : Effect) :
    appended (h ++ [(c, effect)]) = appended h ++ effect.line := by
  rw [appended, List.flatMap_append, List.flatMap_singleton]
  rfl

theorem received_snoc (h : Log) (c : Call) (effect : Effect) :
    received (h ++ [(c, effect)]) = received h ++ effect.lines := by
  rw [received, List.flatMap_append, List.flatMap_singleton]
  rfl

theorem fresh_snoc (h : Log) (c : Call) (effect : Effect) :
    fresh (h ++ [(c, effect)]) =
      match effect with
      | .snapshot _ => []
      | effect => fresh h ++ effect.line := by
  rw [fresh, List.foldl_append, List.foldl_cons, List.foldl_nil]
  cases effect with
  | _ => rfl

/-! ## Lines in the order of their numbers -/

/-- The numbers do not run out; the thread that appends has the least number of those that are
about to; and the ring holds what was appended since the last poll. -/
def Orderly (h : Log) (self : LogRing) : Call → Prop
  | .take .. => self.nextSeq.toNat + 1 < 2 ^ 64
  | .append thread =>
      (fresh h).length < LOG_RING_CAPACITY ∧
        ∀ line ∈ self.pushing.lookup thread, ∀ e ∈ self.pushing.entries, line.seq ≤ e.2.seq
  | .poll => True

instance decidableOrderly (h : Log) (self : LogRing) : (c : Call) → Decidable (Orderly h self c)
  | .take .. => inferInstanceAs (Decidable (_ < _))
  | .append _ => inferInstanceAs (Decidable (_ ∧ ∀ line ∈ self.pushing.lookup _, _))
  | .poll => inferInstanceAs (Decidable True)

/-- The number of a line. -/
def number (line : LogEntry) : Nat := line.seq.toNat

/-- The client has `got` some lines and `new` ones are in the ring.  Every line appended is before
every line to come, and the cursor stands between what the client has got and what is new. -/
structure Inv (got new : List LogEntry) (s : LogRing) : Prop where
  ring : s.entries = (got ++ new).rtake LOG_RING_CAPACITY
  few : new.length ≤ LOG_RING_CAPACITY
  sorted : (got ++ new).Pairwise fun x y => number x < number y
  seen : ∀ x ∈ got, number x ≤ s.lastLogSeq.toNat
  unseen : ∀ x ∈ new, s.lastLogSeq.toNat < number x
  bounded : ∀ x ∈ got ++ new, number x < s.nextSeq.toNat
  cursor : s.lastLogSeq.toNat < s.nextSeq.toNat
  coming : ∀ thread x, s.pushing.lookup thread = some x →
    number x < s.nextSeq.toNat ∧ s.lastLogSeq.toNat < number x ∧
      ∀ y ∈ got ++ new, number y < number x
  distinct : ∀ thread x thread' x', s.pushing.lookup thread = some x →
    s.pushing.lookup thread' = some x' → number x = number x' → thread = thread'

section

variable {got new : List LogEntry} {s : LogRing} {thread : Nat} {line : LogEntry}

theorem inv_new : Inv [] [] LogRing.new where
  ring := rfl
  few := Nat.zero_le _
  sorted := List.Pairwise.nil
  seen := fun _ hx => absurd hx List.not_mem_nil
  unseen := fun _ hx => absurd hx List.not_mem_nil
  bounded := fun _ hx => absurd hx List.not_mem_nil
  cursor := Nat.zero_lt_one
  coming := fun _ _ hx => nomatch hx
  distinct := fun _ _ _ _ hx => nomatch hx

/-- The new number is larger than all others. -/
theorem inv_take (hinv : Inv got new s) (hroom : s.nextSeq.toNat + 1 < 2 ^ 64)
    (hidle : thread ∉ s.pushing) (unixTsMs : UInt64) (level : String) (target : Option String)
    (message : String) : Inv got new (s.take thread unixTsMs level target message) := by
  have hnext : (s.nextSeq + 1).toNat = s.nextSeq.toNat + 1 := by
    rw [UInt64.toNat_add]
    exact Nat.mod_eq_of_lt hroom
  have hlt : s.nextSeq.toNat < (s.nextSeq + 1).toNat := hnext ▸ Nat.lt_succ_self _
  refine ⟨hinv.ring, hinv.few, hinv.sorted, hinv.seen, hinv.unseen,
    fun x hx => (hinv.bounded x hx).trans hlt, hinv.cursor.trans hlt, fun t x hx => ?_,
    fun t x t' x' hx hx' hsame => ?_⟩
  · rcases AssocMap.lookup_insert_cases hx with ⟨-, rfl⟩ | hx
    · exact ⟨hlt, hinv.cursor, hinv.bounded⟩
    · obtain ⟨hbound, hpast, hlater⟩ := hinv.coming t x hx
      exact ⟨hbound.trans hlt, hpast, hlater⟩
  · rcases AssocMap.lookup_insert_cases hx with ⟨rfl, rfl⟩ | hx
    · rcases AssocMap.lookup_insert_cases hx' with ⟨rfl, -⟩ | hx'
      · rfl
      · exact absurd hsame (Nat.ne_of_gt (hinv.coming t' x' hx').1)
    · rcases AssocMap.lookup_insert_cases hx' with ⟨-, rfl⟩ | hx'
      · exact absurd hsame (Nat.ne_of_lt (hinv.coming t x hx).1)
      · exact hinv.distinct t x t' x' hx hx' hsame

/-- The line is past all that are in the ring, and before all that are yet to come. -/
theorem inv_append (hinv : Inv got new s) (hroom : new.length < LOG_RING_CAPACITY)
    (hline : s.pushing.lookup thread = some line)
    (hfirst : ∀ e ∈ s.pushing.entries, line.seq ≤ e.2.seq) :
    Inv got (new ++ [line]) (s.append thread line) := by
  obtain ⟨hbound, hpast, hlater⟩ := hinv.coming thread line hline
  have hother : ∀ t x, (s.pushing.erase thread).lookup t = some x →
      t ≠ thread ∧ s.pushing.lookup t = some x := by
    intro t x hx
    by_cases hsame : t = thread
    · rw [hsame, AList.lookup_erase] at hx
      cases hx
    · rw [AList.lookup_erase_ne hsame] at hx
      exact ⟨hsame, hx⟩
  refine ⟨?_, ?_, ?_, hinv.seen, fun x hx => ?_, fun x hx => ?_, hinv.cursor, fun t x hx => ?_,
    fun t x t' x' hx hx' => ?_⟩
  · show pushBounded _ s.entries line = _
    rw [hinv.ring, pushBounded_rtake (by decide), List.append_assoc]
  · rw [List.length_append]
    exact hroom
  · rw [← List.append_assoc, List.pairwise_append]
    refine ⟨hinv.sorted, List.pairwise_singleton _ _, fun x hx y hy => ?_⟩
    rw [List.mem_singleton.mp hy]
    exact hlater x hx
  · rcases List.mem_append.mp hx with hx | hx
    · exact hinv.unseen x hx
    · rw [List.mem_singleton.mp hx]
      exact hpast
  · rw [← List.append_assoc] at hx
    rcases List.mem_append.mp hx with hx | hx
    · exact hinv.bounded x hx
    · rw [List.mem_singleton.mp hx]
      exact hbound
  · obtain ⟨hne, hx⟩ := hother t x hx
    obtain ⟨hbound', hpast', hlater'⟩ := hinv.coming t x hx
    refine ⟨hbound', hpast', fun y hy => ?_⟩
    rw [← List.append_assoc] at hy
    rcases List.mem_append.mp hy with hy | hy
    · exact hlater' y hy
    · -- No other thread has a smaller number, and none has the same.
      rw [List.mem_singleton.mp hy]
      have hle := UInt64.le_iff_toNat_le.mp (hfirst _ (AList.mem_lookup_iff.mp hx))
      refine lt_of_le_of_ne hle fun hsame => hne ?_
      exact hinv.distinct t x thread line hx hline hsame.symm
  · exact hinv.distinct t x t' x' (hother t x hx).2 (hother t' x' hx').2

theorem entriesSince_eq (s : LogRing) (since : UInt64) :
    s.entriesSince since = after number since.toNat s.entries :=
  List.filter_congr fun _ _ => decide_eq_decide.mpr UInt64.lt_iff_toNat_lt

/-- A poll finds the new lines. -/
theorem entriesSince_inv (hinv : Inv got new s) : s.entriesSince s.lastLogSeq = new := by
  rw [entriesSince_eq, hinv.ring]
  exact after_rtake hinv.seen hinv.unseen hinv.few

theorem inv_poll (hinv : Inv got new s) : Inv (got ++ new) [] (step s .poll).1 := by
  have hstep : (step s .poll).1 =
      { s with lastLogSeq := (new.getLast?.map LogEntry.seq).getD s.lastLogSeq } := by
    rw [step, entriesSince_inv hinv]
  rw [hstep]
  rcases List.eq_nil_or_concat new with rfl | ⟨init, last, rfl⟩
  · rw [List.append_nil]
    exact hinv
  · rw [List.concat_eq_append] at *
    have hlast : last ∈ got ++ (init ++ [last]) := by simp
    have hcursor : (((init ++ [last]).getLast?.map LogEntry.seq).getD s.lastLogSeq) = last.seq := by
      rw [List.getLast?_concat]
      rfl
    rw [hcursor]
    have hsorted := hinv.sorted
    rw [← List.append_assoc, List.pairwise_append] at hsorted
    refine ⟨by rw [List.append_nil]; exact hinv.ring, Nat.zero_le _,
      by rw [List.append_nil]; exact hinv.sorted, fun x hx => ?_,
      fun _ hx => absurd hx List.not_mem_nil, by rw [List.append_nil]; exact hinv.bounded,
      hinv.bounded last hlast, fun t x hx => ?_, hinv.distinct⟩
    · -- The cursor is at the last line, which has the largest number.
      rw [← List.append_assoc] at hx
      rcases List.mem_append.mp hx with hx | hx
      · exact le_of_lt (hsorted.2.2 x hx last (List.mem_singleton_self _))
      · rw [List.mem_singleton.mp hx]
        exact le_refl _
    · obtain ⟨hbound, -, hlater⟩ := hinv.coming t x hx
      exact ⟨hbound, hlater last hlast, by rw [List.append_nil]; exact hlater⟩

end

/-- What the record of a run says of the lines. -/
def Streamed (h : Log) (s : LogRing) : Prop :=
  received h ++ fresh h = appended h ∧ Inv (received h) (fresh h) s

theorem streamed_nothing {h : Log} {s : LogRing} (hs : Streamed h s) (c : Call) :
    Streamed (h ++ [(c, .nothing)]) s := by
  unfold Streamed
  rw [received_snoc, appended_snoc, fresh_snoc]
  show received h ++ [] ++ (fresh h ++ []) = appended h ++ [] ∧
    Inv (received h ++ []) (fresh h ++ []) s
  rw [List.append_nil, List.append_nil, List.append_nil]
  exact hs

theorem streamed_step (h : Log) (s : LogRing) (c : Call) (hs : Streamed h s)
    (hc : Orderly h s c) : Streamed (h ++ [(c, (step s c).2)]) (step s c).1 := by
  cases c with
  | take thread unixTsMs level target message =>
    rw [step]
    split
    · exact streamed_nothing hs _
    · rename_i hidle
      obtain ⟨hall, hinv⟩ := hs
      exact streamed_nothing
        ⟨hall, inv_take hinv hc hidle unixTsMs level target message⟩ _
  | append thread =>
    rw [step]
    cases hline : s.pushing.lookup thread with
    | none => exact streamed_nothing hs _
    | some line =>
      unfold Streamed
      rw [received_snoc, appended_snoc, fresh_snoc]
      show received h ++ [] ++ (fresh h ++ [line]) = appended h ++ [line] ∧
        Inv (received h ++ []) (fresh h ++ [line]) (s.append thread line)
      rw [List.append_nil, ← List.append_assoc, hs.1]
      exact ⟨rfl, inv_append hs.2 hc.1 hline (hc.2 line hline)⟩
  | poll =>
    unfold Streamed
    rw [received_snoc, appended_snoc, fresh_snoc]
    show received h ++ s.entriesSince s.lastLogSeq ++ [] = appended h ++ [] ∧
      Inv (received h ++ s.entriesSince s.lastLogSeq) [] (step s .poll).1
    rw [entriesSince_inv hs.2, List.append_nil, List.append_nil]
    exact ⟨hs.1, inv_poll hs.2⟩

/-- **Every line once.**  The client's snapshots, one after the other, are the lines in the order
in which they were appended, up to those appended since its last poll; and no line is there
twice. -/
theorem each_line_once {calls : List Call} (h : Mealy.Along step Orderly [] .new calls) :
    received (Mealy.log step .new calls) ++ fresh (Mealy.log step .new calls) =
        appended (Mealy.log step .new calls) ∧
      ∀ line ∈ appended (Mealy.log step .new calls),
        (received (Mealy.log step .new calls)).count line =
          if line ∈ fresh (Mealy.log step .new calls) then 0 else 1 := by
  obtain ⟨hall, hinv⟩ := Mealy.invariant_along (I := Streamed) streamed_step
    (h := []) ⟨rfl, inv_new⟩ h
  refine ⟨hall, fun line hline => ?_⟩
  have hnodup : (received (Mealy.log step .new calls) ++
      fresh (Mealy.log step .new calls)).Nodup :=
    hinv.sorted.imp fun hlt hsame => absurd (congrArg number hsame) (Nat.ne_of_lt hlt)
  have hone := List.count_eq_one_of_mem hnodup (hall.symm ▸ hline)
  rw [List.count_append] at hone
  split
  · rename_i hfresh
    have := List.count_pos_iff.mpr hfresh
    omega
  · rename_i hfresh
    rw [List.count_eq_zero.mpr hfresh] at hone
    exact hone

/-- A thread begins to push a line. -/
def info (thread : Nat) (message : String) : Call := .take thread 0 "INFO" none message

theorem each_line_once_two_threads :
    (received (Mealy.log step .new [info 0 "a", info 1 "b", .append 0, .poll, .append 1, .poll,
      .poll])).map LogEntry.message = ["a", "b"] ∧
    received (Mealy.log step .new [info 0 "a", info 1 "b", .append 0, .poll, .append 1, .poll,
        .poll]) ++ [] =
      appended (Mealy.log step .new [info 0 "a", info 1 "b", .append 0, .poll, .append 1, .poll,
        .poll]) :=
  ⟨by decide +kernel, (each_line_once (by decide +kernel)).1⟩

/-- The second thread is first to the lock.  The client polls in between, and never gets the line
of the first thread; or it polls after both, and gets the line of the second thread again with
its next poll. -/
theorem line_skipped_or_repeated :
    ((appended (Mealy.log step .new [info 0 "a", info 1 "b", .append 1, .poll, .append 0, .poll])
        ).map LogEntry.message = ["b", "a"] ∧
      (received (Mealy.log step .new [info 0 "a", info 1 "b", .append 1, .poll, .append 0, .poll])
        ).map LogEntry.message = ["b"]) ∧
    (appended (Mealy.log step .new [info 0 "a", info 1 "b", .append 1, .append 0, .poll, .poll])
        ).map LogEntry.message = ["b", "a"] ∧
      (received (Mealy.log step .new [info 0 "a", info 1 "b", .append 1, .append 0, .poll, .poll])
        ).map LogEntry.message = ["b", "a", "b"] := by
  decide +kernel

end Mlvpn.Ports.LogStream
