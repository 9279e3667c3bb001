import Mlvpn.Ports.HttpRequest
import Mlvpn.Verified.Mealy
import Mlvpn.Verified.RingCursor

/-!
# Pages of events

Port of the web API's `events` and of the part of `Shared::ingest` that it reads: the last 500
events are held, and a request gets the newest of those past its cursor, with the cursor for the
next request.  A run is a list of snapshots taken in and of requests by one client.

## Main results

* `matching_eq`: the events past the client's cursor are those taken in since its last request.
* `served_run`: no event is in two answers.
* `each_event_once_iff`: every event still held when the client next asks is in exactly one of its
  answers, if and only if no request has a limit below the number of these events.
* `page_skips`: a client that polls for two events at a time.
-/

namespace Mlvpn.Ports.EventPages

open Verified HttpRequest RingCursor
open Protocol (Bytes)

def EVENT_CAPACITY : Nat := 500
def MAX_EVENTS_PER_REQUEST : Nat := 500

structure EventRecord where
  seq : UInt64
  unixTsMs : UInt64
  severity : String
  kind : String
  link : Option String
  message : String
  fields : List (String × String)
deriving Repr, DecidableEq

/-- `Response::error`. -/
structure ErrorResponse where
  status : Nat
  message : String
deriving Repr, DecidableEq

structure Page where
  events : List EventRecord
  nextSince : UInt64
deriving Repr, DecidableEq

/-- `str::parse`, for an unsigned number below the bound. -/
def parseUint (bound : Nat) (s : Bytes) : Option Nat :=
  let digits := (stripPrefix (ch '+') s).getD s
  if digits = [] ∨ digits.all isAsciiDigit = false then none
  else
    let n := digits.foldl (fun n b => 10 * n + (b - ch '0').toNat) 0
    if n < bound then some n else none

def clampLimit (query : Bytes) (default max : Nat) : Except ErrorResponse Nat :=
  match queryParam query (ascii "limit") with
  | none => .ok default
  | some v =>
      match parseUint (2 ^ 64) v with
      | some n => .ok (Nat.max 1 (Nat.min n max))
      | none => .error ⟨400, "limit must be a positive integer"⟩

def sinceParam (query : Bytes) : Except ErrorResponse UInt64 :=
  match queryParam query (ascii "since") with
  | none => .ok 0
  | some v =>
      match parseUint (2 ^ 64) v with
      | some n => .ok (UInt64.ofNat n)
      | none => .error ⟨400, "since must be a non-negative integer"⟩

/-- The newest `limit` events after the cursor, oldest first. -/
def page (events : List EventRecord) (since : UInt64) (limit : Nat) : Page :=
  let matching := events.filter fun e => e.seq > since
  let skip := matching.length - limit
  ⟨matching.drop skip,
    events.getLast?.elim since fun e => if e.seq > since then e.seq else since⟩

def events (events : List EventRecord) (query : Bytes) : Except ErrorResponse Page := do
  let since ← sinceParam query
  let limit ← clampLimit query 100 MAX_EVENTS_PER_REQUEST
  .ok (page events since limit)

/-- The events of a snapshot are taken in one after the other. -/
def ingest (events newEvents : List EventRecord) : List EventRecord :=
  newEvents.foldl (pushBounded EVENT_CAPACITY) events

/-! ## A client -/

/-- The events held, and the `next_since` of the client's last answer. -/
structure Web where
  events : List EventRecord
  nextSince : UInt64

def Web.new : Web := ⟨[], 0⟩

inductive Call where
  | ingest (newEvents : List EventRecord)
  | request (query : Bytes)
deriving Repr, DecidableEq

def step (self : Web) : Call → Web × Option (Except ErrorResponse Page)
  | .ingest newEvents => ({ self with events := ingest self.events newEvents }, none)
  | .request query =>
      match events self.events query with
      | .ok page => ({ self with nextSince := page.nextSince }, some (.ok page))
      | .error e => (self, some (.error e))

abbrev Log := List (Call × Option (Except ErrorResponse Page))

/-- Everything taken in. -/
def ingested (h : Log) : List EventRecord :=
  h.flatMap fun e => match e.1 with
    | .ingest newEvents => newEvents
    | .request _ => []

/-- What was taken in since the last request. -/
def fresh (h : Log) : List EventRecord :=
  h.foldl (fun acc e => match e.1 with
    | .ingest newEvents => acc ++ newEvents
    | .request _ => []) []

/-- The events that the client's next answer ought to have: taken in since its last request and
still held. -/
def due (h : Log) (self : Web) : List EventRecord := self.events.filter fun e => e ∈ fresh h

/-- Event numbers increase, from 1 on; the client asks with the cursor of its last answer, and any
limit. -/
def Expected (h : Log) (self : Web) : Call → Prop
  | .ingest newEvents =>
      (ingested h ++ newEvents).Pairwise (fun e e' => e.seq.toNat < e'.seq.toNat) ∧
        ∀ e ∈ newEvents, 0 < e.seq.toNat
  | .request query =>
      sinceParam query = .ok self.nextSince ∧
        ∃ limit, clampLimit query 100 MAX_EVENTS_PER_REQUEST = .ok limit

def pageEvents : Option (Except ErrorResponse Page) → List EventRecord
  | some (.ok p) => p.events
  | _ => []

/-- The events of all answers, one answer after the other. -/
def answers (h : Log) : List EventRecord := h.flatMap fun e => pageEvents e.2

/-- Every event that is due when the client asks is in exactly one answer of the run. -/
def EachOnce (calls : List Call) : Prop :=
  ∀ before query after, calls = before ++ .request query :: after →
    ∀ e ∈ due (Mealy.log step .new before) (Mealy.run step .new before),
      (answers (Mealy.log step .new calls)).count e = 1

/-- A request's limit is no smaller than the number of the events due. -/
def Enough (h : Log) (self : Web) : Call → Prop
  | .ingest _ => True
  | .request query =>
      ∀ limit, clampLimit query 100 MAX_EVENTS_PER_REQUEST = .ok limit →
        (due h self).length ≤ limit

/-! ## The cursor -/

/-- What the client's cursor says of the events taken in. -/
structure Inv (h : Log) (s : Web) : Prop where
  held : s.events = (ingested h).rtake EVENT_CAPACITY
  sorted : (ingested h).Pairwise fun e e' => e.seq.toNat < e'.seq.toNat
  new : ∀ e ∈ fresh h, s.nextSince.toNat < e.seq.toNat
  old : ∀ e ∈ ingested h, e ∈ fresh h ∨ e.seq.toNat ≤ s.nextSince.toNat
  /-- The cursor is below every number to come. -/
  ahead : ∀ n, 0 < n → (∀ e ∈ ingested h, e.seq.toNat < n) → s.nextSince.toNat < n

section

variable {h : Log} {s : Web} {query : Bytes} {newEvents : List EventRecord}

theorem ingested_ingest (h : Log) (newEvents : List EventRecord)
    (answer : Option (Except ErrorResponse Page)) :
    ingested (h ++ [(.ingest newEvents, answer)]) = ingested h ++ newEvents := by
  rw [ingested, List.flatMap_append, List.flatMap_singleton]
  rfl

theorem ingested_request (h : Log) (query : Bytes) (answer : Option (Except ErrorResponse Page)) :
    ingested (h ++ [(.request query, answer)]) = ingested h := by
  rw [ingested, List.flatMap_append, List.flatMap_singleton]
  exact List.append_nil _

theorem fresh_ingest (h : Log) (newEvents : List EventRecord)
    (answer : Option (Except ErrorResponse Page)) :
    fresh (h ++ [(.ingest newEvents, answer)]) = fresh h ++ newEvents := by
  rw [fresh, List.foldl_append]
  rfl

theorem fresh_request (h : Log) (query : Bytes) (answer : Option (Except ErrorResponse Page)) :
    fresh (h ++ [(.request query, answer)]) = [] := by
  rw [fresh, List.foldl_append]
  rfl

variable {e : EventRecord}

theorem Inv.mem_ingested (hinv : Inv h s) (he : e ∈ s.events) : e ∈ ingested h := by
  rw [hinv.held] at he
  exact List.mem_of_mem_drop he

/-- The events past the cursor are the events due. -/
theorem matching_eq (hinv : Inv h s) :
    (s.events.filter fun e => e.seq > s.nextSince) = due h s := by
  refine List.filter_congr fun e he => decide_eq_decide.mpr ?_
  rw [gt_iff_lt, UInt64.lt_iff_toNat_lt]
  refine ⟨fun hpast => ?_, hinv.new e⟩
  rcases hinv.old e (hinv.mem_ingested he) with hfresh | hle
  · exact hfresh
  · exact absurd hpast (Nat.not_lt.mpr hle)

theorem inv_new : Inv [] .new where
  held := rfl
  sorted := List.Pairwise.nil
  new := fun _ he => absurd he List.not_mem_nil
  old := fun _ he => absurd he List.not_mem_nil
  ahead := fun _ hn _ => hn

theorem inv_ingest (hinv : Inv h s) (hexp : Expected h s (.ingest newEvents)) :
    Inv (h ++ [(.ingest newEvents, (step s (.ingest newEvents)).2)])
      (step s (.ingest newEvents)).1 := by
  obtain ⟨hsorted, hpos⟩ := hexp
  have hlater := (List.pairwise_append.mp hsorted).2.2
  refine ⟨?_, ?_, fun e he => ?_, fun e he => ?_, fun n hn hall => ?_⟩
  · rw [ingested_ingest]
    show ingest s.events newEvents = _
    rw [ingest, hinv.held, foldl_pushBounded (by decide)]
  · rw [ingested_ingest]
    exact hsorted
  · rw [fresh_ingest] at he
    rcases List.mem_append.mp he with he | he
    · exact hinv.new e he
    · exact hinv.ahead _ (hpos e he) fun e' he' => hlater e' he' e he
  · rw [ingested_ingest] at he
    rw [fresh_ingest, List.mem_append]
    rcases List.mem_append.mp he with he | he
    · exact (hinv.old e he).imp_left Or.inl
    · exact Or.inl (Or.inr he)
  · rw [ingested_ingest] at hall
    exact hinv.ahead n hn fun e he => hall e (List.mem_append_left _ he)

variable {limit : Nat}

/-- The answer to a request of the client. -/
theorem events_of_expected (hexp : Expected h s (.request query))
    (hlimit : clampLimit query 100 MAX_EVENTS_PER_REQUEST = .ok limit) :
    events s.events query = .ok (page s.events s.nextSince limit) := by
  rw [events, hexp.1, hlimit]
  rfl

theorem step_request (hexp : Expected h s (.request query))
    (hlimit : clampLimit query 100 MAX_EVENTS_PER_REQUEST = .ok limit) :
    step s (.request query) =
      ({ s with nextSince := (page s.events s.nextSince limit).nextSince },
        some (.ok (page s.events s.nextSince limit))) := by
  rw [step, events_of_expected hexp hlimit]

/-- Whatever the limit, the new cursor is that of the newest event. -/
theorem inv_request (hinv : Inv h s) (hexp : Expected h s (.request query)) :
    Inv (h ++ [(.request query, (step s (.request query)).2)]) (step s (.request query)).1 := by
  obtain ⟨limit, hlimit⟩ := hexp.2
  have hlast : s.events.getLast? = (ingested h).getLast? := by
    rw [hinv.held, getLast?_rtake (by decide)]
  have hcursor : (page s.events s.nextSince limit).nextSince =
      (ingested h).getLast?.elim s.nextSince fun e =>
        if e.seq > s.nextSince then e.seq else s.nextSince := by
    rw [← hlast]
    rfl
  rw [step_request hexp hlimit, hcursor]
  refine ⟨by rw [ingested_request]; exact hinv.held, by rw [ingested_request]; exact hinv.sorted,
    fun e he => ?_, fun e he => Or.inr ?_, fun n hn hall => ?_⟩
  · rw [fresh_request] at he
    cases he
  · rw [ingested_request] at he
    rcases List.eq_nil_or_concat (ingested h) with hnil | ⟨init, last, hall⟩
    · rw [hnil] at he
      cases he
    · rw [List.concat_eq_append] at hall
      have hle : e.seq.toNat ≤ last.seq.toNat := by
        have hsorted := hinv.sorted
        rw [hall] at he hsorted
        rcases List.mem_append.mp he with he | he
        · exact le_of_lt ((List.pairwise_append.mp hsorted).2.2 e he last
            (List.mem_singleton_self _))
        · rw [List.mem_singleton.mp he]
      rw [hall, List.getLast?_concat, Option.elim_some]
      split
      case isTrue => exact hle
      case isFalse hsmall =>
        exact le_trans hle (UInt64.le_iff_toNat_le.mp (UInt64.not_lt.mp hsmall))
  · rw [ingested_request] at hall
    cases hend : (ingested h).getLast? with
    | none => exact hinv.ahead n hn hall
    | some last =>
      rw [Option.elim_some]
      split
      case isTrue => exact hall last (List.mem_of_getLast? hend)
      case isFalse => exact hinv.ahead n hn hall

theorem inv_step (h : Log) (s : Web) (c : Call) (hinv : Inv h s) (hexp : Expected h s c) :
    Inv (h ++ [(c, (step s c).2)]) (step s c).1 := by
  cases c with
  | ingest newEvents => exact inv_ingest hinv hexp
  | request query => exact inv_request hinv hexp

/-- The answer is the end of what is due. -/
theorem pageEvents_request (hinv : Inv h s) (hexp : Expected h s (.request query))
    (hlimit : clampLimit query 100 MAX_EVENTS_PER_REQUEST = .ok limit) :
    pageEvents (step s (.request query)).2 = (due h s).drop ((due h s).length - limit) := by
  rw [step_request hexp hlimit, ← matching_eq hinv]
  rfl

theorem Inv.nodup (hinv : Inv h s) : (ingested h).Nodup :=
  hinv.sorted.imp fun hlt hsame => absurd (congrArg (·.seq.toNat) hsame) (Nat.ne_of_lt hlt)

theorem Inv.nodup_due (hinv : Inv h s) : (due h s).Nodup := by
  unfold due
  rw [hinv.held]
  exact (hinv.nodup.sublist (List.drop_sublist _ _)).filter _

theorem answers_snoc (h : Log) (c : Call) (answer : Option (Except ErrorResponse Page)) :
    answers (h ++ [(c, answer)]) = answers h ++ pageEvents answer := by
  rw [answers, List.flatMap_append, List.flatMap_singleton]
  rfl

/-- What has been answered was taken in before the last request, and answered once. -/
structure Served (h : Log) : Prop where
  past : ∀ e ∈ answers h, e ∈ ingested h ∧ e ∉ fresh h
  once : (answers h).Nodup

/-- Numbers increase, so that what is taken in is not among what was. -/
theorem not_mem_of_ingested (hexp : Expected h s (.ingest newEvents))
    (he : e ∈ ingested h) : e ∉ newEvents := by
  intro hnew
  exact absurd ((List.pairwise_append.mp hexp.1).2.2 e he e hnew) (Nat.lt_irrefl _)

theorem served_step (c : Call) (hinv : Inv h s) (hexp : Expected h s c) (hserved : Served h) :
    Served (h ++ [(c, (step s c).2)]) := by
  cases c with
  | ingest newEvents =>
    have hsame : answers (h ++ [(.ingest newEvents, (step s (.ingest newEvents)).2)]) =
        answers h := (answers_snoc ..).trans (List.append_nil _)
    refine ⟨fun e he => ?_, hsame ▸ hserved.once⟩
    rw [hsame] at he
    obtain ⟨hmem, hnot⟩ := hserved.past e he
    rw [ingested_ingest, fresh_ingest]
    refine ⟨List.mem_append_left _ hmem, fun hfresh => ?_⟩
    rcases List.mem_append.mp hfresh with hfresh | hfresh
    · exact hnot hfresh
    · exact not_mem_of_ingested hexp hmem hfresh
  | request query =>
    obtain ⟨limit, hlimit⟩ := hexp.2
    have hdue : ∀ e ∈ pageEvents (step s (.request query)).2, e ∈ due h s := by
      intro e he
      rw [pageEvents_request hinv hexp hlimit] at he
      exact List.mem_of_mem_drop he
    refine ⟨fun e he => ?_, ?_⟩
    · rw [ingested_request, fresh_request]
      rw [answers_snoc] at he
      refine ⟨?_, List.not_mem_nil⟩
      rcases List.mem_append.mp he with he | he
      · exact (hserved.past e he).1
      · exact hinv.mem_ingested (List.mem_filter.mp (hdue e he)).1
    · rw [answers_snoc, List.nodup_append]
      refine ⟨hserved.once, ?_, fun e he e' he' hsame => ?_⟩
      · rw [pageEvents_request hinv hexp hlimit]
        exact hinv.nodup_due.sublist (List.drop_sublist _ _)
      · -- What is due is fresh, and what has been answered is not.
        refine (hserved.past e he).2 ?_
        rw [hsame]
        exact of_decide_eq_true (List.mem_filter.mp (hdue e' he')).2

/-- What is no longer fresh is not answered again. -/
theorem not_answered_later {calls : List Call} (hinv : Inv h s)
    (hold : e ∈ ingested h) (hnot : e ∉ fresh h) (hexp : Mealy.Along step Expected h s calls) :
    e ∈ answers (h ++ Mealy.log step s calls) → e ∈ answers h := by
  refine (Mealy.invariant_along (I := fun h' s' => Inv h' s' ∧ e ∈ ingested h' ∧ e ∉ fresh h' ∧
    (e ∈ answers h' → e ∈ answers h)) ?_ ⟨hinv, hold, hnot, id⟩ hexp).2.2.2
  rintro h' s' c ⟨hinv', hold', hnot', hback⟩ hc
  refine ⟨inv_step h' s' c hinv' hc, ?_⟩
  cases c with
  | ingest newEvents =>
    rw [ingested_ingest, fresh_ingest, answers_snoc]
    refine ⟨List.mem_append_left _ hold', fun hfresh => ?_, fun he => hback ?_⟩
    · rcases List.mem_append.mp hfresh with hfresh | hfresh
      · exact hnot' hfresh
      · exact not_mem_of_ingested hc hold' hfresh
    · exact (List.append_nil (answers h')) ▸ he
  | request query =>
    rw [ingested_request, fresh_request, answers_snoc]
    refine ⟨hold', List.not_mem_nil, fun he => hback ?_⟩
    rcases List.mem_append.mp he with he | he
    · exact he
    · obtain ⟨limit, hlimit⟩ := hc.2
      rw [pageEvents_request hinv' hc hlimit] at he
      exact absurd (of_decide_eq_true (List.mem_filter.mp (List.mem_of_mem_drop he)).2) hnot'

end

section

variable {calls : List Call}

theorem served_run (hexp : Mealy.Along step Expected [] .new calls) :
    Inv (Mealy.log step .new calls) (Mealy.run step .new calls) ∧
      Served (Mealy.log step .new calls) := by
  refine Mealy.invariant_along (I := fun h s => Inv h s ∧ Served h) ?_ (h := [])
    ⟨inv_new, ⟨fun e he => absurd he List.not_mem_nil, List.nodup_nil⟩⟩ hexp
  exact fun h s c hboth hc => ⟨inv_step h s c hboth.1 hc, served_step c hboth.1 hc hboth.2⟩

/-- **Exactly one answer.**  Every event still held when the client next asks is in exactly one of
its answers, if and only if no request has a limit below the number of these events. -/
theorem each_event_once_iff (hexp : Mealy.Along step Expected [] .new calls) :
    EachOnce calls ↔ Mealy.Along step Enough [] .new calls := by
  constructor
  · refine fun honce => Mealy.along_iff.mpr fun before c after hsplit => ?_
    cases c with
    | ingest newEvents => trivial
    | request query =>
        intro limit hlimit
        have hcalls := honce before query after hsplit
        rw [hsplit] at hcalls hexp
        obtain ⟨hbefore, hc, hafter⟩ := Mealy.along_append.mp hexp
        obtain ⟨hinv, hserved⟩ := served_run hbefore
        rw [List.nil_append] at hc hafter ⊢
        rw [Mealy.log_append, Mealy.log_cons, List.append_cons] at hcalls
        have hsub : due (Mealy.log step .new before) (Mealy.run step .new before) ⊆
            pageEvents (step (Mealy.run step .new before) (.request query)).2 := by
          intro e he
          obtain ⟨hheld, hfresh⟩ := List.mem_filter.mp he
          have hmem := List.count_pos_iff.mp (Nat.lt_of_lt_of_eq Nat.zero_lt_one (hcalls e he).symm)
          -- The event is in this answer, since it is in none before and in none after.
          have hnow := not_answered_later (inv_step _ _ _ hinv hc)
            (by rw [ingested_request]; exact hinv.mem_ingested hheld)
            (by rw [fresh_request]; exact List.not_mem_nil) hafter hmem
          rw [answers_snoc] at hnow
          rcases List.mem_append.mp hnow with hearlier | hnow
          · exact absurd (of_decide_eq_true hfresh) (hserved.past e hearlier).2
          · exact hnow
        rw [pageEvents_request hinv hc hlimit] at hsub
        have hlen := (hinv.nodup_due.subperm hsub).length_le
        rw [List.length_drop] at hlen
        omega
  · intro henough before query after hsplit e he
    refine List.count_eq_one_of_mem (served_run hexp).2.once ?_
    have hlimit := Mealy.along_iff.mp henough before _ after hsplit
    rw [hsplit] at hexp
    obtain ⟨hbefore, hc, -⟩ := Mealy.along_append.mp hexp
    rw [List.nil_append] at hc hlimit
    obtain ⟨limit, hclamp⟩ := hc.2
    have hpage := pageEvents_request (served_run hbefore).1 hc hclamp
    rw [Nat.sub_eq_zero_of_le (hlimit limit hclamp), List.drop_zero] at hpage
    rw [hsplit, Mealy.log_append, Mealy.log_cons, answers, List.flatMap_append, List.flatMap_cons]
    exact List.mem_append_right _ (List.mem_append_left _ (hpage ▸ he))

end

/-- An event of the source's tests. -/
def event (seq : UInt64) : EventRecord :=
  ⟨seq, 1000 + seq, "info", "LINK_UP", some "wan1", "event", []⟩

theorem each_event_once_two_requests :
    EachOnce [.ingest [event 1, event 2], .request [], .ingest [event 3],
      .request (ascii "since=2&limit=1")] := by
  refine (each_event_once_iff ?_).mpr ?_
  · refine ⟨⟨by decide, by decide⟩, ⟨by decide +kernel, 100, by decide +kernel⟩,
      ⟨by decide +kernel, by decide⟩, ⟨by decide +kernel, 1, by decide +kernel⟩, trivial⟩
  · refine ⟨trivial, fun limit hlimit => ?_, trivial, fun limit hlimit => ?_, trivial⟩
    · obtain rfl : 100 = limit := Except.ok.inj hlimit
      decide +kernel
    · obtain rfl : 1 = limit := Except.ok.inj hlimit
      decide +kernel

/-- A client that has event 1, and then five more events.  With its cursor it asks for two of them
and gets the last two and the cursor past all five, and with its next request nothing. -/
def pollingClient : List Call :=
  [.ingest [event 1], .request (ascii "limit=2"),
    .ingest [event 2, event 3, event 4, event 5, event 6], .request (ascii "since=1&limit=2"),
    .request (ascii "since=6&limit=2")]

theorem page_skips :
    Mealy.Along step Expected [] .new pollingClient ∧ ¬EachOnce pollingClient := by
  refine ⟨⟨⟨by decide, by decide⟩, ⟨by decide +kernel, 2, by decide +kernel⟩,
    ⟨by decide +kernel, by decide⟩, ⟨by decide +kernel, 2, by decide +kernel⟩,
    ⟨by decide +kernel, 2, by decide +kernel⟩, trivial⟩, fun honce => ?_⟩
  exact absurd (honce (pollingClient.take 3) _ _ rfl (event 2) (by decide +kernel))
    (by decide +kernel)

end Mlvpn.Ports.EventPages
