import Mlvpn.Ports.HttpRequest

/-!
# Reading a request

Port of `http::read_request`: bytes are read and collected until the blank line that ends the
head of a request, within a limit on their number and on the time.  A connection is a machine
that takes one read after the other; its state is the buffer, and the answer once there is one.

## Main results

* `answer_of_reads`: the answer after some reads is a function of the bytes they brought.
* `read_request_chunking`: so it does not depend on how the bytes were cut into reads; and the
  buffer stays below 9216 bytes.
-/

namespace Mlvpn.Ports.HttpRead

open HttpRequest Verified.TextSplit
open Protocol (Bytes)

/-- Ten seconds, in nanoseconds. -/
def REQUEST_DEADLINE : Nat := 10000000000

abbrev Answer := Except ParseError Request

inductive ReadResult where
  | data (chunk : Bytes)
  | closed
  | failed
deriving Repr, DecidableEq

/-- One round of the loop: the time since the start, and what the read brings. -/
structure Read where
  elapsed : Nat
  result : ReadResult
deriving Repr, DecidableEq

structure Connection where
  buf : Bytes
  answer : Option Answer

/-- The blank line that ends the head. -/
def blankLine : Bytes := [ch '\r', ch '\n', ch '\r', ch '\n']

def findHeaderEnd (buf : Bytes) : Option Nat := (position blankLine buf).map (· + 4)

/-- The checks at the top of the loop. -/
def checkBuf (buf : Bytes) : Option Answer :=
  match findHeaderEnd buf with
  | some headerEnd => some (parseRequest (buf.take headerEnd))
  | none => if buf.length ≥ MAX_REQUEST_BYTES then some (.error .TooLarge) else none

def Connection.start : Connection := ⟨[], checkBuf []⟩

/-- A read, and the checks at the top of the next round. -/
def readRequest (self : Connection) (read : Read) : Connection :=
  if self.answer.isSome then self
  else if read.elapsed ≥ REQUEST_DEADLINE then { self with answer := some (.error .Io) }
  else
    match read.result with
    | .closed => { self with answer := some (.error .Malformed) }
    | .failed => { self with answer := some (.error .Io) }
    | .data chunk => ⟨self.buf ++ chunk, checkBuf (self.buf ++ chunk)⟩

/-! ## The answer to a stream of bytes -/

/-- The answer to the bytes sent, if they call for one before the connection is closed. -/
def verdict (sent : Bytes) : Option Answer :=
  match findHeaderEnd sent with
  | some headerEnd =>
      if headerEnd ≤ MAX_REQUEST_BYTES then some (parseRequest (sent.take headerEnd))
      else some (.error .TooLarge)
  | none => if sent.length ≥ MAX_REQUEST_BYTES then some (.error .TooLarge) else none

/-- Reads that bring these chunks in time. -/
structure Brings (chunks : List Bytes) (reads : List Read) : Prop where
  data : reads.map Read.result = chunks.map .data
  inTime : ∀ read ∈ reads, read.elapsed < REQUEST_DEADLINE
  size : ∀ chunk ∈ chunks, 1 ≤ chunk.length ∧ chunk.length ≤ 1024

section

variable {buf sent more : Bytes} {headerEnd : Nat}

theorem findHeaderEnd_le (h : findHeaderEnd buf = some headerEnd) : headerEnd ≤ buf.length := by
  obtain ⟨i, hi, rfl⟩ := Option.map_eq_some_iff.mp h
  obtain ⟨hat, hle, -⟩ := position_eq_some.mp hi
  have hlen := hat.length_le
  rw [List.length_drop] at hlen
  change 4 ≤ buf.length - i at hlen
  omega

theorem findHeaderEnd_append (h : findHeaderEnd sent = some headerEnd) (more : Bytes) :
    findHeaderEnd (sent ++ more) = some headerEnd := by
  obtain ⟨i, hi, rfl⟩ := Option.map_eq_some_iff.mp h
  rw [findHeaderEnd, position_append hi]
  rfl

/-- A blank line that was not there before ends in what has come since. -/
theorem lt_of_findHeaderEnd_append (hnone : findHeaderEnd sent = none)
    (h : findHeaderEnd (sent ++ more) = some headerEnd) : sent.length < headerEnd := by
  obtain ⟨i, hi, rfl⟩ := Option.map_eq_some_iff.mp h
  exact le_of_position_append (Option.map_eq_none_iff.mp hnone) hi

/-- A head that is too long is refused as such by `parse_request` as well. -/
theorem parseRequest_tooLarge (h : MAX_REQUEST_BYTES < buf.length) :
    parseRequest buf = .error .TooLarge := if_pos h

theorem verdict_of_end (h : findHeaderEnd sent = some headerEnd) :
    verdict sent = some (if headerEnd ≤ MAX_REQUEST_BYTES then parseRequest (sent.take headerEnd)
      else .error .TooLarge) := by
  rw [verdict, h]
  exact (apply_ite some ..).symm

theorem verdict_of_none (h : findHeaderEnd sent = none) :
    verdict sent =
      if sent.length ≥ MAX_REQUEST_BYTES then some (.error .TooLarge) else none := by
  rw [verdict, h]

/-- The checks give the verdict on what is in the buffer. -/
theorem checkBuf_eq (buf : Bytes) : checkBuf buf = verdict buf := by
  cases h : findHeaderEnd buf with
  | none => rw [verdict_of_none h, checkBuf, h]
  | some headerEnd =>
    rw [verdict_of_end h, checkBuf, h]
    by_cases hfits : headerEnd ≤ MAX_REQUEST_BYTES
    · rw [if_pos hfits]
    · have hlen : (buf.take headerEnd).length = headerEnd :=
        List.length_take_of_le (findHeaderEnd_le h)
      rw [if_neg hfits]
      exact congrArg some (parseRequest_tooLarge (by omega))

/-- More bytes do not change a verdict. -/
theorem verdict_append {answer : Answer} (h : verdict sent = some answer) (more : Bytes) :
    verdict (sent ++ more) = some answer := by
  cases hend : findHeaderEnd sent with
  | some headerEnd =>
    rw [verdict_of_end (findHeaderEnd_append hend more),
      List.take_append_of_le_length (findHeaderEnd_le hend), ← verdict_of_end hend]
    exact h
  | none =>
    rw [verdict_of_none hend] at h
    split at h
    case isTrue hlong =>
      cases h
      cases hend' : findHeaderEnd (sent ++ more) with
      | none =>
        rw [verdict_of_none hend', if_pos]
        rw [List.length_append]
        omega
      | some headerEnd =>
        have hpast := lt_of_findHeaderEnd_append hend hend'
        rw [verdict_of_end hend', if_neg (by omega)]
    case isFalse => cases h

theorem length_of_verdict_none (h : verdict sent = none) : sent.length < MAX_REQUEST_BYTES := by
  unfold verdict at h
  split at h
  · split at h
    · cases h
    · cases h
  · split at h
    · cases h
    · omega

/-- What the connection is like once these bytes have been sent. -/
structure Inv (sent : Bytes) (c : Connection) : Prop where
  answer : c.answer = verdict sent
  /-- Without an answer, everything is in the buffer. -/
  all : c.answer = none → c.buf = sent
  size : c.buf.length ≤ 9215

theorem inv_start : Inv [] .start where
  answer := checkBuf_eq []
  all := fun _ => rfl
  size := Nat.zero_le _

theorem inv_read {c : Connection} {read : Read} {chunk : Bytes} (hinv : Inv sent c)
    (hdata : read.result = .data chunk) (hinTime : read.elapsed < REQUEST_DEADLINE)
    (hsize : chunk.length ≤ 1024) : Inv (sent ++ chunk) (readRequest c read) := by
  unfold readRequest
  cases hanswer : c.answer with
  | some answer =>
    rw [Option.isSome_some, if_pos rfl]
    have hverdict := hinv.answer.symm.trans hanswer
    refine ⟨?_, fun hnone => ?_, hinv.size⟩
    · rw [hanswer, verdict_append hverdict]
    · rw [hanswer] at hnone
      cases hnone
  | none =>
    have hall := hinv.all hanswer
    have hlen := length_of_verdict_none (hinv.answer.symm.trans hanswer)
    rw [Option.isSome_none, if_neg Bool.false_ne_true, if_neg (Nat.not_le.mpr hinTime), hdata,
      hall]
    refine ⟨checkBuf_eq _, fun _ => rfl, ?_⟩
    show (sent ++ chunk).length ≤ 9215
    rw [List.length_append]
    unfold MAX_REQUEST_BYTES at hlen
    omega

/-- The answer after some reads is the verdict on the bytes they brought. -/
theorem answer_of_reads {c : Connection} (hinv : Inv sent c) {chunks : List Bytes}
    {reads : List Read} (h : Brings chunks reads) :
    Inv (sent ++ chunks.flatten) (reads.foldl readRequest c) := by
  induction reads generalizing sent c chunks with
  | nil =>
    have hnil : chunks = [] := List.map_eq_nil_iff.mp h.data.symm
    rw [hnil, List.flatten_nil, List.append_nil]
    exact hinv
  | cons read reads ih =>
    cases chunks with
    | nil => cases h.data
    | cons chunk chunks =>
      obtain ⟨hfirst, hrest⟩ := List.cons.inj h.data
      have hstep := inv_read hinv hfirst (h.inTime read (List.mem_cons_self ..))
        (h.size chunk (List.mem_cons_self ..)).2
      rw [List.flatten_cons, ← List.append_assoc]
      exact ih hstep ⟨hrest, fun r hr => h.inTime r (List.mem_cons_of_mem _ hr),
        fun c hc => h.size c (List.mem_cons_of_mem _ hc)⟩

/-- The reads so far bring the chunks so far. -/
theorem Brings.take {chunks : List Bytes} {reads : List Read} (h : Brings chunks reads) (k : Nat) :
    Brings (chunks.take k) (reads.take k) where
  data := by rw [List.map_take, List.map_take, h.data]
  inTime := fun read hread => h.inTime read (List.mem_of_mem_take hread)
  size := fun chunk hchunk => h.size chunk (List.mem_of_mem_take hchunk)

/-- A connection closed in time. -/
theorem answer_closed {c : Connection} {elapsed : Nat} (h : elapsed < REQUEST_DEADLINE) :
    (readRequest c ⟨elapsed, .closed⟩).answer = some (c.answer.getD (.error .Malformed)) := by
  unfold readRequest
  cases hanswer : c.answer with
  | some answer =>
    rw [Option.isSome_some, if_pos rfl, hanswer]
    rfl
  | none =>
    rw [Option.isSome_none, if_neg Bool.false_ne_true, if_neg (Nat.not_le.mpr h)]
    rfl

/-- **Reads do not matter.**  However the bytes are cut into reads of 1 to 1024 bytes before the
deadline, the answer is the verdict on these bytes: `parse_request` on the bytes up to the first
blank line if they are at most 8192, and too large if 8192 bytes hold none; if there is no verdict
when the connection is closed, the request is malformed.  The buffer never has more than 9215
bytes. -/
theorem read_request_chunking {chunks : List Bytes} {reads : List Read} (h : Brings chunks reads) :
    (reads.foldl readRequest .start).answer = verdict chunks.flatten ∧
    (∀ elapsed < REQUEST_DEADLINE,
      (readRequest (reads.foldl readRequest .start) ⟨elapsed, .closed⟩).answer =
        some ((verdict chunks.flatten).getD (.error .Malformed))) ∧
    ∀ k, ((reads.take k).foldl readRequest .start).buf.length ≤ 9215 := by
  have hanswer := (answer_of_reads inv_start h).answer
  rw [List.nil_append] at hanswer
  refine ⟨hanswer, fun elapsed hinTime => ?_, fun k => (answer_of_reads inv_start (h.take k)).size⟩
  rw [answer_closed hinTime, hanswer]

end

/-- A request in three reads, the blank line cut in two. -/
theorem read_request_chunking_split :
    ([⟨0, .data (ascii "GET / HT")⟩, ⟨5, .data (ascii "TP/1.1\r\n\r")⟩,
        ⟨9, .data (ascii "\nrest")⟩].foldl readRequest .start).answer =
      some (.ok ⟨.Get, ascii "/", []⟩) := by
  have hbrings : Brings [ascii "GET / HT", ascii "TP/1.1\r\n\r", ascii "\nrest"]
      [⟨0, .data (ascii "GET / HT")⟩, ⟨5, .data (ascii "TP/1.1\r\n\r")⟩,
        ⟨9, .data (ascii "\nrest")⟩] := ⟨rfl, by decide, by decide +kernel⟩
  exact (read_request_chunking hbrings).1.trans (by decide +kernel)

end Mlvpn.Ports.HttpRead
