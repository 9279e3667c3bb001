import Mlvpn.Ports.Protocol
import Mlvpn.Verified.TextSplit

/-!
# Requests to the web API

Port of `http::parse_request` and `http::host_allowed`: the head of a request, as bytes, is taken
apart into its request line and its header lines, and a request that came to this loopback port
under another name is refused.  Past the first check all text is ASCII, so a text is its bytes.

## Main results

* `parse_request_ok`: what an accepted request says of its head.
* `no_foreign_host`: an accepted request announces no body and has a path with a single slash;
  all its `Host` values are accepted ones exactly when those before the last one are; and an
  accepted value is a loopback name exactly when brackets stand around `::1` only, with nothing
  but a port of digits after them.
* `foreign_host_served`: a request with two `Host` lines, a value with no port, and a name in
  brackets.
-/

namespace Mlvpn.Ports.HttpRequest

open Verified.TextSplit
open Protocol (Bytes)

def MAX_REQUEST_BYTES : Nat := 8 * 1024
def MAX_HEADERS : Nat := 64

inductive Method where
  | Get
  | Head
deriving Repr, DecidableEq

structure Request where
  method : Method
  path : Bytes
  query : Bytes
deriving Repr, DecidableEq

inductive ParseError where
  | TooLarge
  | Malformed
  | MethodNotAllowed
  | BodyNotAllowed
  | BadHost
  | Io
deriving Repr, DecidableEq

/-! ## Text -/

/-- An ASCII character. -/
def ch (c : Char) : UInt8 := UInt8.ofNat c.toNat

/-- An ASCII text. -/
def ascii (s : String) : Bytes := s.toList.map ch

def toAsciiLowercase (s : Bytes) : Bytes :=
  s.map fun b => if ch 'A' ≤ b ∧ b ≤ ch 'Z' then b + 32 else b

def isAsciiDigit (b : UInt8) : Bool := ch '0' ≤ b && b ≤ ch '9'

/-- `char::is_whitespace`, of an ASCII character. -/
def isWhitespace (b : UInt8) : Bool := 9 ≤ b && b ≤ 13 || b = 32

def trim (s : Bytes) : Bytes := (s.dropWhile isWhitespace).rdropWhile isWhitespace

def stripPrefix (b : UInt8) : Bytes → Option Bytes
  | [] => none
  | x :: xs => if x = b then some xs else none

/-! ## The code -/

/-- The host without its port and its brackets. -/
def hostName (host : Bytes) : Option Bytes :=
  match stripPrefix (ch '[') host with
  | some rest =>
      match splitOnce (ch ']') rest with
      | some (addr, tail) => if tail = [] ∨ tail.head? = some (ch ':') then some addr else none
      | none => none
  | none =>
      match rsplitOnce (ch ':') host with
      | some (n, port) => if port ≠ [] ∧ port.all isAsciiDigit = true then some n else some host
      | none => some host

def hostAllowed (host : Bytes) : Bool :=
  (hostName host).any fun name =>
    toAsciiLowercase name ∈ [ascii "localhost", ascii "127.0.0.1", ascii "::1"]

/-- The loop over the header lines, with the last `Host` so far. -/
def parseHeaders : Nat → Option Bytes → List Bytes → Except ParseError (Option Bytes)
  | _, host, [] => .ok host
  | count, host, line :: lines =>
      if line = [] then .ok host
      else if count + 1 > MAX_HEADERS then .error .TooLarge
      else
        match splitOnce (ch ':') line with
        | none => .error .Malformed
        | some (name, value) =>
            if name = [] ∨ ch ' ' ∈ name ∨ ch '\t' ∈ name then .error .Malformed
            else if toAsciiLowercase name = ascii "host" then
              parseHeaders (count + 1) (some (trim value)) lines
            else if toAsciiLowercase name = ascii "content-length" ∧ trim value ≠ ascii "0" then
              .error .BodyNotAllowed
            else if toAsciiLowercase name = ascii "transfer-encoding" then .error .BodyNotAllowed
            else parseHeaders (count + 1) host lines

def parseMethod (method : Bytes) : Except ParseError Method :=
  if method = ascii "GET" then .ok .Get
  else if method = ascii "HEAD" then .ok .Head
  else .error .MethodNotAllowed

/-- The target is a path, and has neither blanks nor control characters. -/
def targetOk (target : Bytes) : Bool :=
  target.head? = some (ch '/') && !(ascii "//").isPrefixOf target && !target.any (· < 0x21)

def parseRequest (head : Bytes) : Except ParseError Request :=
  if head.length > MAX_REQUEST_BYTES then .error .TooLarge
  else if !head.all (· < 128) then .error .Malformed
  else
    match splitPair (ch '\r') (ch '\n') head with
    | [] => .error .Malformed
    | requestLine :: lines =>
        match requestLine.splitOn (ch ' ') with
        | [method, target, version] =>
            if version ≠ ascii "HTTP/1.1" ∧ version ≠ ascii "HTTP/1.0" then .error .Malformed
            else if !targetOk target then .error .Malformed
            else do
              let method ← parseMethod method
              let host ← parseHeaders 0 none lines
              if host.any fun h => !hostAllowed h then .error .BadHost
              else
                let (path, query) := (splitOnce (ch '?') target).getD (target, [])
                .ok ⟨method, path, query⟩
        | _ => .error .Malformed

def queryParam (query key : Bytes) : Option Bytes :=
  (((query.splitOn (ch '&')).filterMap (splitOnce (ch '='))).find? fun p => p.1 = key).map Prod.snd

/-! ## Header lines -/

/-- A header line's name, in lower case, and its value. -/
def header (line : Bytes) : Option (Bytes × Bytes) :=
  (splitOnce (ch ':') line).map fun p => (toAsciiLowercase p.1, trim p.2)

def untilEmpty (lines : List Bytes) : List Bytes := lines.takeWhile fun line => line ≠ []

/-- The lines between the request line and the first empty line. -/
def headerLines (head : Bytes) : List Bytes :=
  untilEmpty (splitPair (ch '\r') (ch '\n') head).tail

/-- The values of the `Host` lines among some lines. -/
def hosts (lines : List Bytes) : List Bytes :=
  lines.filterMap fun line =>
    (header line).bind fun h => if h.1 = ascii "host" then some h.2 else none

/-- The line announces no body. -/
def NoBody (line : Bytes) : Prop :=
  ∀ h ∈ header line, h.1 ≠ ascii "transfer-encoding" ∧
    (h.1 = ascii "content-length" → h.2 = ascii "0")

/-- The path begins with one slash. -/
def SingleSlash (path : Bytes) : Prop :=
  ∃ rest, path = ch '/' :: rest ∧ rest.head? ≠ some (ch '/')

variable {target line name value : Bytes} (lines : List Bytes)

theorem untilEmpty_cons (hline : line ≠ []) (lines : List Bytes) :
    untilEmpty (line :: lines) = line :: untilEmpty lines :=
  List.takeWhile_cons_of_pos (decide_eq_true hline)

theorem header_of_split (h : splitOnce (ch ':') line = some (name, value)) :
    header line = some (toAsciiLowercase name, trim value) := by
  rw [header, h]
  rfl

theorem hosts_cons_host (h : header line = some (ascii "host", value)) :
    hosts (line :: lines) = value :: hosts lines := by
  rw [hosts, List.filterMap_cons, h]
  rfl

theorem hosts_cons_other (h : header line = some (name, value)) (hname : name ≠ ascii "host") :
    hosts (line :: lines) = hosts lines := by
  rw [hosts, List.filterMap_cons, h, Option.bind_some, if_neg hname]
  rfl

/-- An accepting run of the header loop: the host is the last one, and no line announces a body. -/
theorem parseHeaders_ok {count : Nat} {host host' : Option Bytes} {lines : List Bytes}
    (h : parseHeaders count host lines = .ok host') :
    host' = (hosts (untilEmpty lines)).getLast?.or host ∧
      ∀ line ∈ untilEmpty lines, NoBody line := by
  induction lines generalizing count host with
  | nil =>
    cases h
    exact ⟨rfl, fun line hline => absurd hline List.not_mem_nil⟩
  | cons line lines ih =>
    rw [parseHeaders] at h
    split at h
    case isTrue hempty =>
      cases h
      rw [hempty]
      exact ⟨rfl, fun line hline => absurd hline List.not_mem_nil⟩
    case isFalse hline =>
      rw [untilEmpty_cons hline]
      split at h
      · cases h
      · split at h
        · cases h
        · rename_i name value hsplit
          have hheader := header_of_split hsplit
          split at h
          · cases h
          · split at h
            case isTrue hhost =>
              obtain ⟨hlast, hbody⟩ := ih h
              rw [hhost] at hheader
              refine ⟨?_, List.forall_mem_cons.mpr ⟨?_, hbody⟩⟩
              · rw [hosts_cons_host _ hheader, hlast, List.getLast?_cons]
                cases (hosts (untilEmpty lines)).getLast? with
                | none => rfl
                | some value => rfl
              · intro hd hhd
                rw [hheader] at hhd
                cases hhd
                exact ⟨show ascii "host" ≠ ascii "transfer-encoding" by decide +kernel,
                  fun hsame => absurd hsame
                    (show ascii "host" ≠ ascii "content-length" by decide +kernel)⟩
            case isFalse hhost =>
              split at h
              · cases h
              · rename_i hlength
                split at h
                · cases h
                · rename_i hencoding
                  obtain ⟨hlast, hbody⟩ := ih h
                  refine ⟨?_, List.forall_mem_cons.mpr ⟨?_, hbody⟩⟩
                  · rw [hosts_cons_other _ hheader hhost, hlast]
                  · intro hd hhd
                    rw [hheader] at hhd
                    cases hhd
                    exact ⟨hencoding, fun hname => by_contra fun hne => hlength ⟨hname, hne⟩⟩

/-- What an accepted request says of its head. -/
structure Accepted (head : Bytes) (r : Request) : Prop where
  length : head.length ≤ MAX_REQUEST_BYTES
  /-- The last `Host` has been checked. -/
  host : ∀ value ∈ (hosts (headerLines head)).getLast?, hostAllowed value = true
  body : ∀ line ∈ headerLines head, NoBody line
  path : SingleSlash r.path

theorem targetOk_slash (h : targetOk target = true) : SingleSlash target := by
  unfold targetOk at h
  simp only [Bool.and_eq_true, decide_eq_true_eq, Bool.not_eq_true'] at h
  obtain ⟨⟨hslash, hdouble⟩, -⟩ := h
  obtain ⟨rest, rfl⟩ := List.head?_eq_some_iff.mp hslash
  refine ⟨rest, rfl, fun hnext => ?_⟩
  obtain ⟨rest, rfl⟩ := List.head?_eq_some_iff.mp hnext
  have hslashes : ascii "//" = [ch '/', ch '/'] := by decide +kernel
  have htrue : (ascii "//").isPrefixOf (ch '/' :: ch '/' :: rest) = true :=
    List.isPrefixOf_iff_prefix.mpr ⟨rest, by rw [hslashes]; rfl⟩
  rw [hdouble] at htrue
  cases htrue

/-- A query is cut off behind the slash. -/
theorem singleSlash_path (h : SingleSlash target) :
    SingleSlash ((splitOnce (ch '?') target).getD (target, [])).1 := by
  cases hsplit : splitOnce (ch '?') target with
  | none => exact h
  | some p =>
    obtain ⟨path, query⟩ := p
    obtain ⟨rest, rfl, hnext⟩ := h
    obtain ⟨heq, -⟩ := splitOnce_eq_some.mp hsplit
    cases path with
    | nil =>
      rw [List.nil_append] at heq
      exact absurd (List.cons.inj heq).1 (by decide)
    | cons b path =>
      rw [List.cons_append] at heq
      obtain ⟨rfl, rfl⟩ := List.cons.inj heq
      refine ⟨path, rfl, fun hslash => hnext ?_⟩
      rw [List.head?_append, hslash]
      rfl

theorem parse_request_ok {head : Bytes} {r : Request} (h : parseRequest head = .ok r) :
    Accepted head r := by
  unfold parseRequest at h
  split at h
  · cases h
  · rename_i hlength
    split at h
    · cases h
    · split at h
      · cases h
      · rename_i requestLine lines hlines
        split at h
        · rename_i method target version hparts
          split at h
          · cases h
          · split at h
            · cases h
            · rename_i htarget
              cases hmethod : parseMethod method with
              | error e => rw [hmethod] at h; cases h
              | ok m =>
                cases hheaders : parseHeaders 0 none lines with
                | error e => rw [hmethod, hheaders] at h; cases h
                | ok host =>
                  rw [hmethod, hheaders] at h
                  obtain ⟨hlast, hbody⟩ := parseHeaders_ok hheaders
                  have hheaderLines : headerLines head = untilEmpty lines := by
                    rw [headerLines, hlines, List.tail_cons]
                  rw [Option.or_none] at hlast
                  change (if host.any _ = true then _ else _) = _ at h
                  split at h
                  · cases h
                  · rename_i hallowed
                    cases h
                    refine ⟨Nat.le_of_not_lt hlength, fun value hvalue => ?_,
                      hheaderLines ▸ hbody, ?_⟩
                    · rw [hheaderLines, ← hlast] at hvalue
                      rw [Option.mem_def.mp hvalue] at hallowed
                      simpa using hallowed
                    · refine singleSlash_path (targetOk_slash ?_)
                      simpa using htarget
        · cases h

/-! ## Loopback names -/

def loopbackNames : List Bytes := [ascii "localhost", ascii "127.0.0.1", ascii "::1"]

/-- A loopback name, up to letter case. -/
def LoopbackName (name : Bytes) : Prop := toAsciiLowercase name ∈ loopbackNames

/-- A port of digits, or none. -/
def IsPort (port : Bytes) : Prop :=
  port = [] ∨ ∃ digits, port = ch ':' :: digits ∧ digits ≠ [] ∧ digits.all isAsciiDigit = true

/-- The loopback address that is an IPv6 literal. -/
def LoopbackLiteral (addr : Bytes) : Prop := toAsciiLowercase addr = ascii "::1"

/-- A loopback name, with a port or not; the IPv6 literal may stand in brackets. -/
def Loopback (host : Bytes) : Prop :=
  ∃ name port, host = name ++ port ∧ IsPort port ∧
    (LoopbackName name ∨ ∃ addr, name = ch '[' :: (addr ++ [ch ']']) ∧ LoopbackLiteral addr)

/-- Where the host begins with a bracket, the literal stands before the closing one and nothing
but a port after it. -/
def Bracketed (host : Bytes) : Prop :=
  ∀ rest ∈ stripPrefix (ch '[') host, ∀ p ∈ splitOnce (ch ']') rest,
    LoopbackLiteral p.1 ∧ IsPort p.2

/-- A letter case apart, the bytes of a loopback name are those of the three. -/
theorem LoopbackName.byte (h : LoopbackName name) {b : UInt8} (hb : b ∈ name)
    (hlower : ¬(ch 'A' ≤ b ∧ b ≤ ch 'Z')) : ∃ n ∈ loopbackNames, b ∈ n := by
  refine ⟨toAsciiLowercase name, h, List.mem_map.mpr ⟨b, hb, if_neg hlower⟩⟩

theorem LoopbackName.no_bracket (h : LoopbackName name) : ch '[' ∉ name ∧ ch ']' ∉ name := by
  constructor
  · intro hb
    exact absurd (h.byte hb (by decide)) (by decide +kernel)
  · intro hb
    exact absurd (h.byte hb (by decide)) (by decide +kernel)

theorem LoopbackLiteral.loopbackName (h : LoopbackLiteral name) : LoopbackName name := by
  rw [LoopbackName, h]
  decide

theorem LoopbackName.ne_nil (h : LoopbackName name) : name ≠ [] := by
  rintro rfl
  exact absurd h (by decide +kernel : ¬(toAsciiLowercase [] ∈ loopbackNames))

theorem stripPrefix_eq_some {b : UInt8} {l rest : Bytes} :
    stripPrefix b l = some rest ↔ l = b :: rest := by
  cases l with
  | nil => exact ⟨(fun h => nomatch h), (fun h => nomatch h)⟩
  | cons x xs =>
    rw [stripPrefix]
    split
    case isTrue hx => rw [hx, Option.some_inj, List.cons_inj_right]
    case isFalse hx => exact ⟨(fun h => nomatch h), fun h => absurd (List.cons.inj h).1 hx⟩

/-- A loopback name that begins with a bracket. -/
theorem loopback_bracket {rest : Bytes} :
    Loopback (ch '[' :: rest) ↔
      ∃ addr port, rest = addr ++ ch ']' :: port ∧ IsPort port ∧ LoopbackLiteral addr := by
  constructor
  · rintro ⟨name, port, heq, hport, hname | ⟨addr, rfl, haddr⟩⟩
    · obtain ⟨b, name, rfl⟩ := List.exists_cons_of_ne_nil hname.ne_nil
      rw [List.cons_append] at heq
      exact absurd ((List.cons.inj heq).1 ▸ List.mem_cons_self ..) hname.no_bracket.1
    · refine ⟨addr, port, ?_, hport, haddr⟩
      rw [List.cons_append, List.append_assoc] at heq
      exact (List.cons.inj heq).2
  · rintro ⟨addr, port, rfl, hport, haddr⟩
    exact ⟨ch '[' :: (addr ++ [ch ']']), port, by simp, hport, Or.inr ⟨addr, rfl, haddr⟩⟩

/-- An accepted host is a loopback name, unless it has brackets of another kind. -/
theorem loopback_iff {host : Bytes} (h : hostAllowed host = true) :
    Loopback host ↔ Bracketed host := by
  obtain ⟨name, hname, hloop⟩ := Option.any_eq_true _ _ |>.mp h
  rw [decide_eq_true_eq] at hloop
  change LoopbackName name at hloop
  unfold hostName at hname
  unfold Bracketed
  cases hstrip : stripPrefix (ch '[') host with
  | none =>
    refine ⟨(fun _ _ hrest => nomatch hrest), fun _ => ?_⟩
    simp only [hstrip] at hname
    cases hsplit : rsplitOnce (ch ':') host with
    | none =>
      simp only [hsplit] at hname
      cases hname
      exact ⟨host, [], (List.append_nil _).symm, Or.inl rfl, Or.inl hloop⟩
    | some p =>
      simp only [hsplit] at hname
      split at hname
      case isTrue hdigits =>
        cases hname
        exact ⟨p.1, ch ':' :: p.2, (rsplitOnce_eq_some.mp hsplit).1,
          Or.inr ⟨p.2, rfl, hdigits⟩, Or.inl hloop⟩
      case isFalse =>
        cases hname
        exact ⟨host, [], (List.append_nil _).symm, Or.inl rfl, Or.inl hloop⟩
  | some rest =>
    simp only [hstrip] at hname
    cases hsplit : splitOnce (ch ']') rest with
    | none => rw [hsplit] at hname; cases hname
    | some p =>
      obtain ⟨addr, tail⟩ := p
      simp only [hsplit] at hname
      split at hname
      case isTrue =>
        cases hname
        rw [stripPrefix_eq_some.mp hstrip, loopback_bracket]
        constructor
        · rintro ⟨addr', port, hrest, hport, haddr⟩ rest' hrest' p hp
          cases hrest'
          have hsame := splitOnce_eq_some.mpr ⟨hrest, haddr.loopbackName.no_bracket.2⟩
          rw [Option.mem_def.mp hp] at hsame
          cases hsame
          exact ⟨haddr, hport⟩
        · intro hbracketed
          obtain ⟨haddr, hport⟩ := hbracketed rest rfl _ hsplit
          exact ⟨name, tail, (splitOnce_eq_some.mp hsplit).1, hport, haddr⟩
      case isFalse => cases hname

/-- An accepted request announces no body and its path begins with one slash.  All its `Host`
values are accepted ones if and only if those before the last are; and an accepted value is a
loopback name if and only if brackets stand around `::1` only and nothing but a port of digits
follows them. -/
theorem no_foreign_host (head host : Bytes) (r : Request) :
    (parseRequest head = .ok r →
      ((∀ value ∈ hosts (headerLines head), hostAllowed value = true) ∧
          (∀ line ∈ headerLines head, NoBody line) ∧ SingleSlash r.path ↔
        ∀ value ∈ (hosts (headerLines head)).dropLast, hostAllowed value = true)) ∧
    (hostAllowed host = true → (Loopback host ↔ Bracketed host)) := by
  refine ⟨fun hok => ?_, fun hallowed => loopback_iff hallowed⟩
  have haccepted := parse_request_ok hok
  constructor
  · exact fun h value hvalue => h.1 value (List.mem_of_mem_dropLast hvalue)
  · refine fun hearlier => ⟨fun value hvalue => ?_, haccepted.body, haccepted.path⟩
    rcases List.eq_nil_or_concat (hosts (headerLines head)) with hnil | ⟨earlier, last, hlast⟩
    · rw [hnil] at hvalue
      cases hvalue
    · rw [List.concat_eq_append] at hlast
      have hchecked := haccepted.host
      rw [hlast, List.dropLast_concat] at hearlier
      rw [hlast, List.getLast?_concat] at hchecked
      rw [hlast] at hvalue
      rcases List.mem_append.mp hvalue with hvalue | hvalue
      · exact hearlier value hvalue
      · rw [List.mem_singleton.mp hvalue]
        exact hchecked last rfl

theorem no_foreign_host_local :
    (hosts (headerLines (ascii "GET /api HTTP/1.1\r\nHost: LocalHost:8765\r\n\r\n")) =
        [ascii "LocalHost:8765"] ∧
      ∀ value ∈ hosts (headerLines
        (ascii "GET /api HTTP/1.1\r\nHost: LocalHost:8765\r\n\r\n")),
        hostAllowed value = true) ∧
    Loopback (ascii "[::1]:8765") := by
  refine ⟨⟨by decide +kernel, ?_⟩, ?_⟩
  · refine (((no_foreign_host _ [] ⟨.Get, ascii "/api", []⟩).1 (by decide +kernel)).mpr ?_).1
    decide +kernel
  · refine ((no_foreign_host [] (ascii "[::1]:8765") ⟨.Get, [], []⟩).2 (by decide +kernel)).mpr ?_
    intro rest hrest p hp
    obtain rfl : ascii "::1]:8765" = rest := Option.some.inj hrest
    obtain rfl : (ascii "::1", ascii ":8765") = p := Option.some.inj hp
    exact ⟨rfl, Or.inr ⟨ascii "8765", by decide +kernel⟩⟩

/-- Of two `Host` lines only the last one is checked; what follows a closing bracket need not
be a port; and brackets may stand around a name. -/
theorem foreign_host_served :
    (parseRequest (ascii
        "GET /api HTTP/1.1\r\nHost: evil.example\r\nHost: localhost\r\n\r\n") =
          .ok ⟨.Get, ascii "/api", []⟩ ∧
      ascii "evil.example" ∈ hosts (headerLines (ascii
        "GET /api HTTP/1.1\r\nHost: evil.example\r\nHost: localhost\r\n\r\n")) ∧
      hostAllowed (ascii "evil.example") = false) ∧
    (hostAllowed (ascii "[::1]:evil") = true ∧ ¬Loopback (ascii "[::1]:evil")) ∧
    hostAllowed (ascii "[localhost]") = true ∧ ¬Loopback (ascii "[localhost]") := by
  refine ⟨by decide +kernel, ⟨by decide +kernel, ?_⟩, by decide +kernel, ?_⟩
  · rw [loopback_iff (by decide +kernel)]
    intro hbracketed
    rcases (hbracketed (ascii "::1]:evil") (by decide +kernel) (ascii "::1", ascii ":evil")
      (by decide +kernel)).2 with hnone | ⟨digits, hdigits, -, hall⟩
    · exact absurd hnone (by decide +kernel)
    · obtain rfl : ascii "evil" = digits := (List.cons.inj hdigits).2
      exact absurd hall (by decide +kernel)
  · rw [loopback_iff (by decide +kernel)]
    intro hbracketed
    have hliteral := (hbracketed (ascii "localhost]") (by decide +kernel) (ascii "localhost", [])
      (by decide +kernel)).1
    exact absurd hliteral (by decide +kernel : toAsciiLowercase (ascii "localhost") ≠ ascii "::1")

end Mlvpn.Ports.HttpRequest
