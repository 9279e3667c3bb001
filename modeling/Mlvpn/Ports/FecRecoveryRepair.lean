import Mlvpn.Ports.FecRecoverySound
import Mlvpn.Ports.FecRecoveryFrame

/-!
# One or two erasures are repaired

Follow one group through a run.  It is *waiting* until its first share arrives,
*parked* while two of its members are absent and one kind of share is held, and
*repaired* once every member has arrived or been recovered.  Frames and shares
of other groups leave the phase alone; the group's own share or late member
moves it on.

The side conditions are those of the buffer's design: no restart, room among
the parked groups, and, while a member is still outstanding, no plaintext of the
group lost or expired and no member behind the floor or the stale window.  A
parked group lives as long as a plaintext, so while one of its plaintexts is not
expired a tick keeps it.  A group that has none, two members of which both are
missing, is given up when it has been parked that long.

## Main results

* `Phases.step` — one call keeps the phase invariant or moves the group on.
* `erasures_repaired` — every member that never arrives is returned exactly
  once, as sent.
* `parked_pair_given_up` — a group of two that is given up between its shares.
-/

namespace Mlvpn.Ports.FecRecoveryRepair

open Protocol FecSend FecRecovery FecRecoveryBuffer FecReconstruct FecRecoveryOps
open Verified FecRecoverySeen FecRecoveryFrame AssocMap
open FecRecoverySound (sharesOf_add)

/-! ## The group and its calls -/

section

variable (ms : List Member) (calls : List Call) (log : List (Call × Reply)) (b : FecRecoveryBuffer)

/-- The key a group parks under. -/
def groupKey : UInt64 := (ms.map Prod.fst).headD 0

/-- The data frames among the calls, by number. -/
def arrivals : List UInt64 :=
  calls.filterMap fun c => match c with
    | .observeData _ seq _ => some seq
    | _ => none

/-- The shares of the group among the calls, by kind. -/
def shareKinds : List ParityKind :=
  calls.filterMap fun c => match c with
    | .tryRecover _ kind parity => if parity.memberSeqs = ms.map Prod.fst then some kind else none
    | _ => none

/-- Calls caused by the group's own frames and shares, or by nothing that names
one of its members. -/
def Regards : Call → Prop
  | .observeData _ seq plaintext => seq ∈ ms.map Prod.fst → (seq, plaintext) ∈ ms
  | .tryRecover _ kind parity =>
      Covers kind ms parity ∨ ∀ s ∈ parity.memberSeqs, s ∉ ms.map Prod.fst
  | .takeLateRecoveries => True
  | .tick _ => True

/-- The members no call has brought yet. -/
def absent : List Member := ms.filter fun m => m.1 ∉ arrivals calls

/-- The numbers a log says have come. -/
abbrev came : List UInt64 := arrivals (log.map Prod.fst)

/-- The members a log lacks. -/
abbrev lacking : List Member := absent ms (log.map Prod.fst)

/-- The kinds of share a log has had for the group. -/
abbrev kindsOf : List ParityKind := shareKinds ms (log.map Prod.fst)

/-- Everything recovered under the number `s` so far, taken or waiting. -/
def returned (s : UInt64) : List Member :=
  (log.flatMap (·.2.recovered) ++ b.lateRecoveries).filter (·.1 = s)

/-- Some member has neither arrived nor been recovered. -/
def Outstanding : Prop :=
  ∃ m ∈ ms, m.1 ∉ came log ∧ returned log b m.1 = []

/-- While a member is outstanding: the group's plaintexts are retained and no
member is behind the floor or the stale window. -/
structure Fresh : Prop where
  room : b.parked.entries.length < MAX_PARKED_GROUPS
  retained : Outstanding ms log b →
    ∀ m ∈ ms, m.1 ∈ came log → m.1 ∈ b.payloads
  above : Outstanding ms log b → ∀ m ∈ ms, ¬∃ floor ∈ b.seenFloor, m.1 ≤ floor
  recent : Outstanding ms log b → ∀ m ∈ ms, ¬m.1 + STALE_SEQ_WINDOW ≤ b.highestSeq

instance : Decidable (Outstanding ms log b) :=
  inferInstanceAs (Decidable (∃ m ∈ ms, _ ∧ _))

instance : Decidable (Fresh ms log b) :=
  decidable_of_iff
    (b.parked.entries.length < MAX_PARKED_GROUPS ∧
      (Outstanding ms log b → ∀ m ∈ ms, m.1 ∈ came log → m.1 ∈ b.payloads) ∧
      (Outstanding ms log b → ∀ m ∈ ms, ¬∃ floor ∈ b.seenFloor, m.1 ≤ floor) ∧
      (Outstanding ms log b → ∀ m ∈ ms, ¬m.1 + STALE_SEQ_WINDOW ≤ b.highestSeq))
    ⟨fun h => ⟨h.1, h.2.1, h.2.2.1, h.2.2.2⟩, fun h => ⟨h.1, h.2, h.3, h.4⟩⟩

/-- While a member is outstanding, a tick finds no plaintext of the group expired, and does not
give up the group if it has none.  Time does not go back between a frame and a share. -/
def Kept : Call → Prop
  | .tick now => Outstanding ms log b →
      (∀ m ∈ ms, ∀ v ∈ b.payloads.lookup m.1, now - v.1 < b.payloadTtl) ∧
      ((∀ m ∈ ms, m.1 ∉ came log) → groupKey ms ∉ expiredKeys b now)
  | .tryRecover env _ _ => ∀ m ∈ ms, ∀ v ∈ b.payloads.lookup m.1, v.1 ≤ env.clock 4
  | _ => True

instance : (c : Call) → Decidable (Kept ms log b c)
  | .tick _ => inferInstanceAs (Decidable (Outstanding ms log b → _ ∧ (_ → _)))
  | .tryRecover env _ _ =>
      inferInstanceAs (Decidable (∀ m ∈ ms, ∀ v ∈ b.payloads.lookup m.1, v.1 ≤ env.clock 4))
  | .observeData _ _ _ | .takeLateRecoveries => inferInstanceAs (Decidable True)

/-- At the group's first share, no more members are absent than the configured
shares can repair. -/
def Repairable : Call → Prop
  | .tryRecover _ _ parity =>
      parity.memberSeqs = ms.map Prod.fst → kindsOf ms log = [] →
        (lacking ms log).length ≤ b.maxErasures
  | _ => True

instance : (c : Call) → Decidable (Repairable ms log b c)
  | .tryRecover _ _ parity => inferInstanceAs (Decidable
      (parity.memberSeqs = ms.map Prod.fst → kindsOf ms log = [] →
        (lacking ms log).length ≤ b.maxErasures))
  | .observeData _ _ _ | .takeLateRecoveries | .tick _ => inferInstanceAs (Decidable True)

/-- The conditions a call is made under. -/
structure Conditions (c : Call) : Prop where
  noReset : NoReset b c
  fresh : Fresh ms log b
  kept : Kept ms log b c
  repairable : Repairable ms log b c

instance (c : Call) : Decidable (Conditions ms log b c) :=
  decidable_of_iff (NoReset b c ∧ Fresh ms log b ∧ Kept ms log b c ∧ Repairable ms log b c)
    ⟨fun h => ⟨h.1, h.2.1, h.2.2.1, h.2.2.2⟩, fun h => ⟨h.1, h.2, h.3, h.4⟩⟩

/-! ## The phases -/

/-- A group as the sender cuts them: small enough for the wire, of distinct
numbers, not empty. -/
structure IsGroup : Prop where
  wire : WireGroup ms
  nodup : (ms.map Prod.fst).Nodup
  nonempty : ms ≠ []

/-- What holds of the group in every phase. -/
structure Base : Prop where
  remembers : Remembers log b
  retains : Retains b ms
  foreign : Foreign (ms.map Prod.fst) (groupKey ms) b
  arrived : ∀ m ∈ ms, m.1 ∈ came log → Accounted b m.1

/-- What the buffer has of the group, arrived. -/
structure Known : Prop where
  seen : ∀ m ∈ ms, Seen b m.1 → m.1 ∈ came log
  payload : ∀ m ∈ ms, m.1 ∈ b.payloads → m.1 ∈ came log

/-- Nothing of the group has been recovered. -/
structure Untouched : Prop extends Known ms log b where
  returned : ∀ m ∈ ms, returned log b m.1 = []

/-- No entry of the parking half belongs to the group. -/
structure Unparked : Prop where
  group : b.parked.lookup (groupKey ms) = none
  index : ∀ m ∈ ms, b.parkedBySeq.lookup m.1 = none

/-- Before the first share. -/
structure Waiting : Prop extends Untouched ms log b, Unparked ms b where
  noShare : kindsOf ms log = []

/-- The shares in hand are of one kind only. -/
def OnlyKind : ParityKind → ShareSet → Prop
  | .P, shares => shares.q = none
  | .Q, shares => shares.p = none

/-- Two members absent, one kind of share held. -/
structure Parked (g : ParkedGroup) (k : ParityKind) : Prop extends Untouched ms log b where
  two : (lacking ms log).length = 2
  double : b.maxErasures = 2
  held : b.parked.lookup (groupKey ms) = some g
  shares : SharesOf ms g.shares
  only : OnlyKind k g.shares
  kinds : ∀ k' ∈ kindsOf ms log, k' = k
  missing : g.missing = (lacking ms log).map Prod.fst
  indexed : ∀ m ∈ lacking ms log, b.parkedBySeq.lookup m.1 = some (groupKey ms)
  unindexed : ∀ m ∈ ms, m.1 ∈ came log → b.parkedBySeq.lookup m.1 = none
  stamped : ∀ m ∈ ms, ∀ v ∈ b.payloads.lookup m.1, v.1 ≤ g.parkedAt

/-- Every member arrived or was recovered, and those that did not arrive were
recovered once. -/
structure Repaired : Prop extends Unparked ms b where
  accounted : ∀ m ∈ ms, Accounted b m.1
  returned : ∀ m ∈ ms, m.1 ∉ came log → returned log b m.1 = [m]

/-- The phase invariant. -/
structure Phases : Prop extends Base ms log b where
  phase : Waiting ms log b ∨ (∃ g k, Parked ms log b g k) ∨ Repaired ms log b

end

section

variable {ms : List Member} {log : List (Call × Reply)} {b b' : FecRecoveryBuffer} {env : CallEnv}
  {seq s : UInt64} {plaintext : Bytes} {kind k : ParityKind} {parity : FecParityPayload}
  {now : Instant} {calls : List Call} {r : Reply} {e : Call × Reply} {m : Member}
  {shares : ShareSet} {g : ParkedGroup}

/-- What is added to the buffer of the group, arrives. -/
theorem Known.adds {log' : List (Call × Reply)} (h : Known ms log b)
    (hmore : ∀ s ∈ came log, s ∈ came log')
    (hseen : ∀ m ∈ ms, Seen b' m.1 → m.1 ∈ came log' ∨ Seen b m.1)
    (hpay : ∀ m ∈ ms, ∀ v, b'.payloads.lookup m.1 = some v →
      m.1 ∈ came log' ∨ b.payloads.lookup m.1 = some v) : Known ms log' b' where
  seen m hm hs := (hseen m hm hs).elim id fun hold => hmore _ (h.seen m hm hold)
  payload m hm hp := by
    obtain ⟨v, hv⟩ := exists_lookup hp
    rcases hpay m hm v hv with harrived | hold
    · exact harrived
    · exact hmore _ (h.payload m hm (mem_of_lookup hold))

theorem Unparked.congr (h : Unparked ms b) (hparked : b'.parked = b.parked)
    (hindex : b'.parkedBySeq = b.parkedBySeq) : Unparked ms b' where
  group := by rw [hparked, h.group]
  index m hm := by rw [hindex, h.index m hm]

theorem mem_absent : m ∈ absent ms calls ↔ m ∈ ms ∧ m.1 ∉ arrivals calls := by
  simp [absent]

theorem seq_mem (hm : m ∈ ms) : m.1 ∈ ms.map Prod.fst := List.mem_map_of_mem hm

theorem groupKey_mem (h : IsGroup ms) : groupKey ms ∈ ms.map Prod.fst := by
  obtain ⟨m, rest, rfl⟩ := List.exists_cons_of_ne_nil h.nonempty
  simp [groupKey]

/-- Selecting by number among distinct numbers gives the member back. -/
theorem filter_seq_eq (h : IsGroup ms) {p : Member → Bool} (hm : m ∈ ms)
    (hp : p m = true) : (ms.filter p).filter (·.1 = m.1) = [m] := by
  have hnodup : (ms.filter p).Nodup := (List.Nodup.of_map _ h.nodup).filter _
  apply List.perm_singleton.1
  apply List.perm_of_nodup_nodup_toFinset_eq (hnodup.filter _) (List.nodup_singleton m)
  ext x
  simp only [List.mem_toFinset, List.mem_filter, decide_eq_true_eq, List.mem_singleton]
  constructor
  · rintro ⟨⟨hx, -⟩, hseq⟩
    exact List.inj_on_of_nodup_map h.nodup hx hm hseq
  · rintro rfl
    exact ⟨⟨hm, hp⟩, rfl⟩

/-- One more entry adds what it recovered and what became late. -/
theorem returned_append (e : Call × Reply) (s : UInt64) :
    returned (log ++ [e]) b' s = (log.flatMap (·.2.recovered)).filter (·.1 = s) ++
      e.2.recovered.filter (·.1 = s) ++ b'.lateRecoveries.filter (·.1 = s) := by
  simp [returned, List.flatMap_append, List.filter_append]

theorem returned_eq (s : UInt64) :
    returned log b s = (log.flatMap (·.2.recovered)).filter (·.1 = s) ++
      b.lateRecoveries.filter (·.1 = s) := by
  simp [returned, List.filter_append]

/-- With nothing recovered outright, what is new is what became late. -/
theorem returned_late {new : List Member} (he : e.2.recovered = [])
    (hlate : b'.lateRecoveries = b.lateRecoveries ++ new) (s : UInt64) :
    returned (log ++ [e]) b' s = returned log b s ++ new.filter (·.1 = s) := by
  rw [returned_append, returned_eq, he, hlate]
  simp [List.filter_append]

/-- With the late recoveries as they were and nothing recovered before, what is
new is what was recovered outright. -/
theorem returned_outright (hnone : returned log b s = [])
    (hlate : b'.lateRecoveries = b.lateRecoveries) :
    returned (log ++ [e]) b' s = e.2.recovered.filter (·.1 = s) := by
  rw [returned_eq, List.append_eq_nil_iff] at hnone
  rw [returned_append, hlate, hnone.1, hnone.2]
  simp

theorem returned_unchanged (he : e.2.recovered.filter (·.1 = s) = [])
    (hlate : b'.lateRecoveries = b.lateRecoveries) :
    returned (log ++ [e]) b' s = returned log b s := by
  rw [returned_append, returned_eq, he, hlate]
  simp

theorem maxErasures_congr (h : b'.parityCount = b.parityCount) :
    b'.maxErasures = b.maxErasures := by
  unfold maxErasures
  rw [h]

theorem lacking_congr {log' : List (Call × Reply)}
    (h : ∀ m ∈ ms, m.1 ∈ came log' ↔ m.1 ∈ came log) : lacking ms log' = lacking ms log := by
  unfold lacking absent
  apply List.filter_congr
  intro m hm
  simp [h m hm]

/-! ## Calls that do not regard the group -/

/-- The log after one more call. -/
abbrev logged (log : List (Call × Reply)) (b : FecRecoveryBuffer) (c : Call) :
    List (Call × Reply) :=
  log ++ [(c, (step b c).2)]

/-- After one more call. -/
abbrev After (P : List (Call × Reply) → FecRecoveryBuffer → Prop) (log : List (Call × Reply))
    (b : FecRecoveryBuffer) (c : Call) : Prop :=
  P (logged log b c) (step b c).1

/-- A call that recovers nothing of the group and leaves its parked entry and index alone keeps
its phase: what it makes known of the group arrived, and nothing of a parked group arrives that
it waits for or is stored anew. -/
theorem Phases.of_calm (h : Phases ms log b) (hbase : Base ms (log ++ [e]) b')
    (hadv : Advances b b')
    (hgroup : b'.parked.lookup (groupKey ms) = b.parked.lookup (groupKey ms))
    (hindex : ∀ m ∈ ms, b'.parkedBySeq.lookup m.1 = b.parkedBySeq.lookup m.1)
    (hcount : b'.parityCount = b.parityCount)
    (hseen : ∀ m ∈ ms, Seen b' m.1 → m.1 ∈ came (log ++ [e]) ∨ Seen b m.1)
    (hpay : ∀ m ∈ ms, ∀ v, b'.payloads.lookup m.1 = some v →
      m.1 ∈ came (log ++ [e]) ∨ b.payloads.lookup m.1 = some v)
    (hparked : ∀ g k, Parked ms log b g k → ∀ m ∈ ms,
      (m.1 ∈ came (log ++ [e]) → m.1 ∈ came log) ∧
        ∀ v, b'.payloads.lookup m.1 = some v → b.payloads.lookup m.1 = some v)
    (hkinds : kindsOf ms (log ++ [e]) = kindsOf ms log)
    (hret : ∀ m ∈ ms, returned (log ++ [e]) b' m.1 = returned log b m.1) :
    Phases ms (log ++ [e]) b' := by
  have hmore : ∀ s ∈ came log, s ∈ came (log ++ [e]) := by
    intro s hs
    rw [came, List.map_append, arrivals, List.filterMap_append]
    exact List.mem_append_left _ hs
  have huntouched : Untouched ms log b → Untouched ms (log ++ [e]) b' := fun hu =>
    { hu.toKnown.adds hmore hseen hpay with
      returned := fun m hm => by rw [hret m hm, hu.returned m hm] }
  have hunparked : Unparked ms b → Unparked ms b' := fun hu =>
    { group := by rw [hgroup, hu.group]
      index := fun m hm => by rw [hindex m hm, hu.index m hm] }
  refine { hbase with phase := ?_ }
  rcases h.phase with hw | ⟨g, k, hp⟩ | hr
  · exact Or.inl
      { huntouched hw.toUntouched, hunparked hw.toUnparked with
        noShare := by rw [hkinds, hw.noShare] }
  · have hold := fun m hm => (hparked g k hp m hm).1
    have habsent := lacking_congr fun m hm => ⟨hold m hm, hmore m.1⟩
    refine Or.inr (Or.inl ⟨g, k, ?_⟩)
    exact
      { huntouched hp.toUntouched with
        two := by rw [habsent, hp.two]
        double := (maxErasures_congr hcount).trans hp.double
        held := by rw [hgroup, hp.held]
        shares := hp.shares
        only := hp.only
        kinds := by rw [hkinds]; exact hp.kinds
        missing := by rw [habsent, hp.missing]
        indexed := fun m hm => by
          rw [habsent] at hm
          rw [hindex m (mem_absent.1 hm).1, hp.indexed m hm]
        unindexed := fun m hm hin => by rw [hindex m hm, hp.unindexed m hm (hold m hm hin)]
        stamped := fun m hm v hv => hp.stamped m hm v ((hparked g k hp m hm).2 v hv) }
  · refine Or.inr (Or.inr ?_)
    exact
      { hunparked hr.toUnparked with
        accounted := fun m hm => hadv.accounted h.remembers.ordered.tracks _ (hr.accounted m hm)
        returned := fun m hm hnot => by
          rw [hret m hm]
          exact hr.returned m hm fun hin => hnot (hmore _ hin) }

/-- A call for other groups. -/
theorem Phases.step_other (hgroup : IsGroup ms) (h : Phases ms log b)
    (hroom : b.parked.entries.length < MAX_PARKED_GROUPS) {c : Call} (hreset : NoReset b c)
    (hc : Elsewhere (ms.map Prod.fst) (groupKey ms) b c) : After (Phases ms) log b c := by
  have hkey := groupKey_mem hgroup
  obtain ⟨hfor, hst, hret⟩ := step_foreign h.foreign hkey hroom hreset hc
  have hadv := advances_step h.remembers.ordered hreset
  have harr : ∀ m ∈ ms, m.1 ∈ came (logged log b c) →
      m.1 ∈ came log := by
    intro m hm
    cases c with
    | observeData env seq plaintext =>
      have hne : m.1 ≠ seq := fun heq => hc (heq ▸ seq_mem hm)
      simp [arrivals, hne]
    | _ => simp [arrivals]
  refine h.of_calm
    { remembers := h.remembers.step hreset
      retains := fun m hm t bytes hlook =>
        h.retains m hm t bytes (hst.payloads m.1 (seq_mem hm) _ hlook)
      foreign := hfor
      arrived := fun m hm hin =>
        hadv.accounted h.remembers.ordered.tracks _ (h.arrived m hm (harr m hm hin)) }
    hadv hst.parked (fun m hm => hst.index m.1 (seq_mem hm)) hst.parityCount
    (fun m hm hs => .inr (hst.seen m.1 (seq_mem hm) hs))
    (fun m hm v hv => .inr (hst.payloads m.1 (seq_mem hm) v hv))
    (fun _ _ _ m hm => ⟨harr m hm, hst.payloads m.1 (seq_mem hm)⟩) ?_ fun m hm => ?_
  · cases c with
    | tryRecover env kind parity =>
      have hne : parity.memberSeqs ≠ ms.map Prod.fst := fun heq => hc _ (heq ▸ hkey) hkey
      simp [shareKinds, hne]
    | _ => simp [shareKinds]
  · rw [returned_append, returned_eq, List.append_assoc, ← List.filter_append,
      hret _ (seq_mem hm)]

/-! ## The group's own data -/

theorem arrivals_snoc :
    s ∈ came (log ++ [(Call.observeData env seq plaintext, r)]) ↔
      s ∈ came log ∨ s = seq := by
  simp [arrivals, eq_comm]

theorem shareKinds_observe :
    kindsOf ms (log ++ [(Call.observeData env seq plaintext, r)]) =
      kindsOf ms log := by
  simp [shareKinds]

/-- The plaintext stored for a member's own frame is the member's. -/
theorem retains_of_own (hgroup : IsGroup ms) (hret : Retains b ms)
    (hm : (seq, plaintext) ∈ ms)
    (hpay : ∀ s v, b'.payloads.lookup s = some v →
      (s = seq ∧ v.2 = plaintext) ∨ b.payloads.lookup s = some v) : Retains b' ms := by
  intro m hmem t bytes hlook
  rcases hpay m.1 (t, bytes) hlook with ⟨hseq, hbytes⟩ | hold
  · have heq : m = (seq, plaintext) := List.inj_on_of_nodup_map hgroup.nodup hmem hm hseq
    rw [heq]
    exact hbytes
  · exact hret m hmem t bytes hold

theorem stored_parking (b : FecRecoveryBuffer) (env : CallEnv) (seq : UInt64)
    (plaintext : Bytes) : parking (stored b env seq plaintext) = parking b :=
  (accept_parking ..).trans (noteSeq_parking b seq)

/-- When no parked group waits for the frame, observing it only touches the
tracking half, and only adds the frame there. -/
theorem observe_plain (hreset : NoRestart b seq)
    (hindex : b.parkedBySeq.lookup seq = none) (env : CallEnv) (plaintext : Bytes) :
    parking (b.observeData env seq plaintext).1 = parking b ∧
      (∀ s, Seen (b.observeData env seq plaintext).1 s → s = seq ∨ Seen b s) ∧
      (∀ s v, (b.observeData env seq plaintext).1.payloads.lookup s = some v →
        (s = seq ∧ v.2 = plaintext) ∨ b.payloads.lookup s = some v) ∧
      (b.observeData env seq plaintext).1.parityCount = b.parityCount := by
  by_cases hseen : Seen (b.noteSeq seq) seq
  · rw [observeData_seen hseen]
    refine ⟨noteSeq_parking b seq, ?_, ?_, noteSeq_parityCount b seq⟩
    · intro s hs
      exact Or.inr ((seen_noteSeq hreset s).1 hs)
    · intro s v hv
      exact Or.inr (noteSeq_payloads_shrinks b seq s v hv)
  · have hpark := stored_parking b env seq plaintext
    have hstored : (b.observeData env seq plaintext).1 = stored b env seq plaintext := by
      rw [observeData_fresh hseen]
      split
      · rfl
      · apply recheckParkedFor_none
        rw [show (stored b env seq plaintext).parkedBySeq = b.parkedBySeq from
          congrArg Parking.parkedBySeq hpark]
        exact hindex
    rw [hstored]
    refine ⟨hpark, ?_, ?_, (accept_parityCount ..).trans (noteSeq_parityCount b seq)⟩
    · intro s hs
      rcases seen_accept hs with hself | hold
      · exact Or.inl hself
      · exact Or.inr ((seen_noteSeq hreset s).1 hold)
    · intro s v hv
      rcases lookup_accept hv with ⟨hself, rfl⟩ | hold
      · exact Or.inl ⟨hself, rfl⟩
      · exact Or.inr (noteSeq_payloads_shrinks b seq s v hold)

/-- What has arrived stays accounted for, and so is the frame that arrives. -/
theorem Phases.arrived_observe (h : Phases ms log b) (env : CallEnv) (plaintext : Bytes)
    (hreset : NoRestart b seq) (m : Member) (hm : m ∈ ms)
    (hin : m.1 ∈ came (logged log b (.observeData env seq plaintext))) :
    Accounted (b.observeData env seq plaintext).1 m.1 := by
  obtain ⟨-, hadv, -, hself, -⟩ := observeData_spec h.remembers.ordered env plaintext hreset
  rcases arrivals_snoc.1 hin with hold | hthis
  · exact hadv.accounted h.remembers.ordered.tracks _ (h.arrived m hm hold)
  · rw [hthis]
    exact hself

/-- A member's frame while nothing is parked for it. -/
theorem Phases.observe_own_plain (hgroup : IsGroup ms) (h : Phases ms log b)
    (hm : (seq, plaintext) ∈ ms) (hreset : NoRestart b seq)
    (hindex : b.parkedBySeq.lookup seq = none)
    (hparked : ∀ g k, Parked ms log b g k → seq ∈ came log ∧ Seen b seq) :
    After (Phases ms) log b (.observeData env seq plaintext) := by
  obtain ⟨hpark, hseen, hpay, hcount⟩ := observe_plain hreset hindex env plaintext
  obtain ⟨hgroupEq, hindexEq, hlate⟩ := Parking.mk.inj hpark
  refine h.of_calm
    { remembers := h.remembers.step (c := .observeData env seq plaintext) hreset
      retains := retains_of_own hgroup h.retains hm hpay
      foreign := h.foreign.of_parking hpark
      arrived := h.arrived_observe env plaintext hreset }
    (observeData_spec h.remembers.ordered env plaintext hreset).2.1 ?_ ?_ hcount
    (fun m _ hs => ?_) (fun m _ v hv => ?_) (fun g k hp m _ => ⟨fun hin => ?_, ?_⟩)
    shareKinds_observe
    fun m _ => returned_unchanged rfl hlate
  · exact congrArg (AList.lookup _) hgroupEq
  · exact fun m _ => congrArg (AList.lookup m.1) hindexEq
  · exact (hseen m.1 hs).imp_left fun hself => arrivals_snoc.2 (Or.inr hself)
  · exact (hpay m.1 v hv).imp_left fun hself => arrivals_snoc.2 (Or.inr hself.1)
  · rcases arrivals_snoc.1 hin with hold | hself
    · exact hold
    · rw [hself]
      exact (hparked g k hp).1
  · -- a copy of a frame that was seen is not stored
    rw [FecRecovery.step, observeData_seen ((seen_noteSeq hreset seq).2 (hparked g k hp).2)]
    exact noteSeq_payloads_shrinks b seq m.1

/-! ## Evaluating the group -/

/-- A state in which the group is evaluated after the calls of a log: what the
buffer has of it is what arrived. -/
structure Evaluable (ms : List Member) (log : List (Call × Reply)) (b : FecRecoveryBuffer) : Prop
    extends Known ms log b where
  retains : Retains b ms
  arrived : ∀ m ∈ ms, m.1 ∈ came log → Accounted b m.1

/-- Nothing was lost to eviction, forgetting or staleness. -/
structure Lossless (ms : List Member) (log : List (Call × Reply)) (b : FecRecoveryBuffer) :
    Prop where
  retained : ∀ m ∈ ms, m.1 ∈ came log → m.1 ∈ b.payloads
  above : ∀ m ∈ ms, ¬∃ floor ∈ b.seenFloor, m.1 ≤ floor
  recent : ∀ m ∈ ms, ¬m.1 + STALE_SEQ_WINDOW ≤ b.highestSeq

theorem Evaluable.missing_eq (h : Evaluable ms log b) (hnone : membersIn b .Handled ms = []) :
    membersIn b .Missing ms = lacking ms log := by
  apply List.filter_congr
  intro m hm
  rw [decide_eq_decide]
  constructor
  · intro hmissing hin
    exact (memberState_eq_missing.1 hmissing).2.1 (h.arrived m hm hin)
  · intro hnot
    rcases memberState_cases b m.1 with hst | hst | hst
    · exact absurd (h.payload m hm (memberState_eq_known.1 hst)) hnot
    · have hmem : m ∈ membersIn b .Handled ms := List.mem_filter.2 ⟨hm, by simpa using hst⟩
      simp [hnone] at hmem
    · exact hst

theorem Evaluable.no_handled (h : Evaluable ms log b) (hl : Lossless ms log b) :
    membersIn b .Handled ms = [] := by
  apply List.filter_eq_nil_iff.2
  intro m hm hst
  have hhandled : b.memberState m.1 = .Handled := of_decide_eq_true hst
  by_cases hin : m.1 ∈ came log
  · have hknown := memberState_eq_known.2 (hl.retained m hm hin)
    rw [hhandled] at hknown
    simp at hknown
  · have hmissing : b.memberState m.1 = .Missing := by
      refine memberState_eq_missing.2 ⟨fun hp => hin (h.payload m hm hp), ?_, hl.recent m hm⟩
      rintro (hseen | hfloor)
      · exact hin (h.seen m hm hseen)
      · exact hl.above m hm hfloor
    rw [hhandled] at hmissing
    simp at hmissing

/-- What each answer to the evaluation says about the absent members. -/
theorem Evaluable.answers (hgroup : IsGroup ms) (h : Evaluable ms log b) (hs : SharesOf ms shares) :
    match b.reconstruct shares with
    | .Recovered frames => frames = lacking ms log
    | .NeedMore missing =>
      missing = (lacking ms log).map Prod.fst ∧ (lacking ms log).length = 2 ∧
        b.maxErasures = 2 ∧ ¬(shares.p.isSome ∧ shares.q.isSome)
    | .AlreadyComplete => Lossless ms log b → lacking ms log = []
    | .Unrecoverable =>
      lacking ms log ≠ [] ∧
        (Lossless ms log b → ¬(lacking ms log).length ≤ b.maxErasures) := by
  have hmax := maxErasures_le_two b
  rw [reconstruct_members hgroup.wire hs h.retains]
  by_cases hempty : membersIn b .Missing ms = []
  · rw [if_pos hempty]
    intro hl
    rw [← h.missing_eq (h.no_handled hl), hempty]
  rw [if_neg hempty]
  by_cases hbad : (membersIn b .Missing ms).length > b.maxErasures ∨
      (membersIn b .Handled ms).length > 0
  · rw [if_pos hbad]
    constructor
    · -- A missing member never arrived, so it is absent.
      obtain ⟨m, hm⟩ := List.exists_mem_of_ne_nil _ hempty
      obtain ⟨hmem, hst⟩ := List.mem_filter.1 hm
      have hmissing : b.memberState m.1 = .Missing := of_decide_eq_true hst
      apply List.ne_nil_of_mem (a := m)
      refine mem_absent.2 ⟨hmem, fun hin => ?_⟩
      exact (memberState_eq_missing.1 hmissing).2.1 (h.arrived m hmem hin)
    · intro hl hle
      have hnone := h.no_handled hl
      rw [h.missing_eq hnone, hnone] at hbad
      simp at hbad
      omega
  rw [if_neg hbad]
  obtain ⟨hcount, hhandled⟩ := not_or.1 hbad
  have hnone : membersIn b .Handled ms = [] := List.length_eq_zero_iff.1 (by omega)
  rw [h.missing_eq hnone] at hcount ⊢
  by_cases hmore : (lacking ms log).length = 2 ∧ ¬(shares.p.isSome ∧ shares.q.isSome)
  · rw [if_pos hmore]
    exact ⟨rfl, hmore.1, by omega, hmore.2⟩
  · rw [if_neg hmore]

/-- Conditions on a state with the same tracking half carry over. -/
theorem lossless_of_fresh (htrack : tracking b' = tracking b) (hf : Fresh ms log b')
    (hout : Outstanding ms log b') : Lossless ms log b := by
  obtain ⟨h1, -, -, -, h5, -, h7, -⟩ := Tracking.mk.inj htrack
  refine { retained := ?_, above := ?_, recent := ?_ }
  · rw [← h1]
    exact hf.retained hout
  · rw [← h5]
    exact hf.above hout
  · rw [← h7]
    exact hf.recent hout

theorem outstanding_of_absent (hm : m ∈ lacking ms log)
    (hnone : returned log b m.1 = []) : Outstanding ms log b :=
  ⟨m, (mem_absent.1 hm).1, (mem_absent.1 hm).2, hnone⟩

theorem retains_deliverAll (hgroup : IsGroup ms) (hret : Retains b ms) {frames : List Member}
    (hsub : frames ⊆ ms) (env : CallEnv) (i : Nat) : Retains (deliverAll env i b frames) ms := by
  refine deliverAll_induction (P := fun b' => Retains b' ms) env i hret fun b' t t' m hm hb => ?_
  apply retains_of_own hgroup hb (hsub hm)
  intro s v hv
  rcases lookup_accept hv with ⟨hself, rfl⟩ | hold
  · exact Or.inl ⟨hself, rfl⟩
  · exact Or.inr hold

/-! ## The group's own shares -/

theorem covers_wellFormed (hgroup : IsGroup ms)
    (hc : Covers kind ms parity) : WellFormed parity := by
  constructor
  · rw [hc.seqs, hc.lens, List.length_map, List.length_map]
  · rw [hc.seqs]
    simpa using hgroup.nonempty

theorem arrivals_share :
    came (log ++ [(Call.tryRecover env kind parity, r)]) =
      came log := by
  simp [arrivals]

theorem absent_share :
    lacking ms (log ++ [(Call.tryRecover env kind parity, r)]) =
      lacking ms log := by
  simp only [absent, arrivals_share]

theorem shareKinds_share (hc : Covers kind ms parity) :
    kindsOf ms (log ++ [(Call.tryRecover env kind parity, r)]) =
      kindsOf ms log ++ [kind] := by
  simp [shareKinds, hc.seqs]

theorem groupKey_of_covers (hc : Covers kind ms parity) :
    parity.memberSeqs.headD 0 = groupKey ms := by
  rw [hc.seqs]
  rfl

/-- Once its share is taken up, the group has no entry in the parking half. -/
theorem unparked_taken (hc : Covers kind ms parity)
    (hindex : ∀ m ∈ ms, b.parkedBySeq.lookup m.1 = none ∨
      ∃ g, b.parked.lookup (groupKey ms) = some g ∧ m.1 ∈ g.missing) :
    Unparked ms (taken b parity) := by
  have hpark := noteSeq_parking b (maxSeq parity)
  have hparked : (b.noteSeq (maxSeq parity)).parked = b.parked := congrArg Parking.parked hpark
  have hbySeq : (b.noteSeq (maxSeq parity)).parkedBySeq = b.parkedBySeq :=
    congrArg Parking.parkedBySeq hpark
  unfold taken
  rw [groupKey_of_covers hc]
  refine { group := ?_, index := ?_ }
  · rw [unpark_lookup, if_pos rfl]
  · intro m hm
    rw [unpark_parkedBySeq, hparked, hbySeq]
    rcases hindex m hm with hnone | hsome
    · rw [hnone]
      exact ite_self _
    · rw [if_pos hsome]

/-- Taking up a share notes its newest number. -/
theorem taken_spec (hreset : NoRestart b (maxSeq parity)) :
    Advances b (taken b parity) ∧ (∀ s, Seen (taken b parity) s → Seen b s) ∧
      Shrinks b.payloads (taken b parity).payloads := by
  have htrack : tracking (taken b parity) = tracking (b.noteSeq (maxSeq parity)) :=
    unpark_tracking _ _
  obtain ⟨h1, -, h3, h4, -⟩ := Tracking.mk.inj htrack
  refine ⟨(advances_noteSeq hreset).1.trans (advances_of_tracking htrack), fun s hs => ?_, ?_⟩
  · apply (seen_noteSeq hreset s).1
    unfold Seen at hs ⊢
    rwa [← h3, ← h4]
  · rw [h1]
    exact noteSeq_payloads_shrinks b _

/-- The state a share is evaluated in. -/
theorem evaluable_taken (h : Base ms log b) (hu : Untouched ms log b)
    (hreset : NoRestart b (maxSeq parity)) : Evaluable ms log (taken b parity) := by
  obtain ⟨hadv, hseen, hpay⟩ := taken_spec hreset
  exact
    { hu.toKnown.adds (fun _ hs => hs) (fun m _ hs => .inr (hseen m.1 hs))
        (fun m _ v hv => .inr (hpay m.1 v hv)) with
      retains := fun m hm t bytes hlook => h.retains m hm t bytes (hpay _ _ hlook)
      arrived := fun m hm hin =>
        hadv.accounted h.remembers.ordered.tracks _ (h.arrived m hm hin) }

theorem taken_parityCount (b : FecRecoveryBuffer) (parity : FecParityPayload) :
    (taken b parity).parityCount = b.parityCount :=
  (congrArg Tracking.parityCount (unpark_tracking _ _)).trans (noteSeq_parityCount b _)

/-- A share arrives for a group that is still open. -/
structure OpenShare (ms : List Member) (log : List (Call × Reply)) (b : FecRecoveryBuffer)
    (env : CallEnv) (kind : ParityKind) (parity : FecParityPayload) : Prop where
  group : IsGroup ms
  phases : Phases ms log b
  untouched : Untouched ms log b
  covers : Covers kind ms parity
  noRestart : NoRestart b (maxSeq parity)
  unparked : Unparked ms (taken b parity)
  shares : SharesOf ms (merged b kind parity)
  kept : Kept ms log b (.tryRecover env kind parity)
  fresh : After (Fresh ms) log b (.tryRecover env kind parity)

section

variable (h : OpenShare ms log b env kind parity)
include h

theorem OpenShare.accounted (hm : m ∈ ms) (hin : m.1 ∈ came log) :
    Accounted (b.tryRecover env kind parity).1 m.1 := by
  have hord := h.phases.remembers.ordered
  obtain ⟨-, hadv, -⟩ := tryRecover_spec hord env kind h.noRestart
  exact hadv.accounted hord.tracks _ (h.phases.arrived m hm hin)

theorem OpenShare.foreign : Foreign (ms.map Prod.fst) (groupKey ms) (taken b parity) :=
  (h.phases.foreign.of_parking (noteSeq_parking b _)).unpark _

theorem OpenShare.evaluable : Evaluable ms log (taken b parity) :=
  evaluable_taken h.phases.toBase h.untouched h.noRestart

theorem OpenShare.base (hret : Retains (b.tryRecover env kind parity).1 ms)
    (hfor : Foreign (ms.map Prod.fst) (groupKey ms) (b.tryRecover env kind parity).1) :
    After (Base ms) log b (.tryRecover env kind parity) where
  remembers := h.phases.remembers.step (c := .tryRecover env kind parity) h.noRestart
  retains := hret
  foreign := hfor
  arrived := fun m hm hin => h.accounted hm (by rwa [arrivals_share] at hin)

/-- The reply says what became of a member: nothing had been returned before. -/
theorem OpenShare.returned_eq (hm : m ∈ ms) :
    returned (logged log b (.tryRecover env kind parity)) (b.tryRecover env kind parity).1 m.1 =
      (step b (.tryRecover env kind parity)).2.recovered.filter fun r => r.1 = m.1 := by
  obtain ⟨-, -, hlate, -⟩ := tryRecover_spec h.phases.remembers.ordered env kind h.noRestart
  exact returned_outright (h.untouched.returned m hm) hlate

theorem OpenShare.unreturned (hm : m ∈ ms)
    (hr : (Reply.outcome (b.tryRecover env kind parity).2).recovered = []) :
    returned (logged log b (.tryRecover env kind parity)) (b.tryRecover env kind parity).1 m.1 =
      [] := by
  rw [h.returned_eq hm, show (step b (.tryRecover env kind parity)).2.recovered = [] from hr]
  rfl

/-- An answer that leaves a member outstanding is given with nothing lost. -/
theorem OpenShare.lossless
    (htrack : tracking (b.tryRecover env kind parity).1 = tracking (taken b parity))
    (hr : (Reply.outcome (b.tryRecover env kind parity).2).recovered = [])
    (hne : lacking ms log ≠ []) : Lossless ms log (taken b parity) := by
  obtain ⟨m, hm⟩ := List.exists_mem_of_ne_nil _ hne
  have hout : Outstanding ms (logged log b (.tryRecover env kind parity))
      (b.tryRecover env kind parity).1 := by
    apply outstanding_of_absent (m := m)
    · rwa [absent_share]
    · exact h.unreturned (mem_absent.1 hm).1 hr
  have hl := lossless_of_fresh htrack h.fresh hout
  exact
    { retained := fun m hm hin => hl.retained m hm (by rwa [arrivals_share])
      above := hl.above
      recent := hl.recent }

/-- The share repairs the group. -/
theorem OpenShare.repairs
    (heq : b.tryRecover env kind parity =
      (deliverAll env 0 (taken b parity) (lacking ms log),
        .Recovered (lacking ms log))) :
    After (Phases ms) log b (.tryRecover env kind parity) := by
  obtain ⟨-, -, -, hrec⟩ := tryRecover_spec h.phases.remembers.ordered env kind h.noRestart
  have hstate := congrArg Prod.fst heq
  have hreply := congrArg Prod.snd heq
  have hpark : parking (b.tryRecover env kind parity).1 = parking (taken b parity) := by
    rw [hstate]
    exact deliverAll_parking ..
  refine { h.base ?_ (h.foreign.of_parking hpark) with phase := Or.inr (Or.inr ?_) }
  · rw [hstate]
    exact retains_deliverAll h.group h.evaluable.retains (fun m hm => (mem_absent.1 hm).1) env 0
  · obtain ⟨hparked, hindex, -⟩ := Parking.mk.inj hpark
    refine { h.unparked.congr hparked hindex with accounted := ?_, returned := ?_ }
    · intro m hm
      by_cases hin : m.1 ∈ came log
      · exact h.accounted hm hin
      · refine (hrec m ?_).2
        rw [hreply]
        exact mem_absent.2 ⟨hm, hin⟩
    · intro m hm hnot
      rw [arrivals_share] at hnot
      refine (h.returned_eq hm).trans ?_
      rw [show (step b (.tryRecover env kind parity)).2 = .outcome _ from
        congrArg Reply.outcome hreply]
      exact filter_seq_eq h.group hm (by simpa using hnot)

/-- The share finds every member arrived. -/
theorem OpenShare.completes (hall : lacking ms log = [])
    (hstate : (b.tryRecover env kind parity).1 = taken b parity) :
    After (Phases ms) log b (.tryRecover env kind parity) := by
  have hin : ∀ m ∈ ms, m.1 ∈ came log := by
    intro m hm
    by_contra hnot
    have hmem := mem_absent.2 ⟨hm, hnot⟩
    simp [hall] at hmem
  refine { h.base ?_ (by rw [hstate]; exact h.foreign) with phase := Or.inr (Or.inr ?_) }
  · rw [hstate]
    exact h.evaluable.retains
  · obtain ⟨hparked, hindex, -⟩ := Parking.mk.inj (congrArg parking hstate)
    refine { h.unparked.congr hparked hindex with accounted := ?_, returned := ?_ }
    · exact fun m hm => h.accounted hm (hin m hm)
    · intro m hm hnot
      rw [arrivals_share] at hnot
      exact absurd (hin m hm) hnot

/-- Parking what the share left leaves the frames and numbers alone. -/
theorem OpenShare.parked {missing : List UInt64}
    (htrack : tracking (b.tryRecover env kind parity).1 = tracking (taken b parity))
    (hstate : (b.tryRecover env kind parity).1 = (taken b parity).park (env.clock 4) env.tie
      (groupKey ms) (merged b kind parity) missing)
    (hlen : (taken b parity).parked.entries.length < MAX_PARKED_GROUPS)
    (hreply : (b.tryRecover env kind parity).2 = .Pending)
    (hmissing : missing = (lacking ms log).map Prod.fst)
    (htwo : (lacking ms log).length = 2)
    (hdouble : (taken b parity).maxErasures = 2) (hkind : OnlyKind kind (merged b kind parity))
    (hkinds : ∀ k ∈ kindsOf ms log, k = kind) :
    Parked ms (logged log b (.tryRecover env kind parity)) (b.tryRecover env kind parity).1
      { parkedAt := env.clock 4, shares := merged b kind parity, missing } kind := by
  have heval := h.evaluable
  obtain ⟨h1, -, h3, h4, -, -, -, h8⟩ := Tracking.mk.inj htrack
  have hknown : After (Known ms) log b (.tryRecover env kind parity) :=
    heval.toKnown.adds (fun s hs => by rwa [arrivals_share])
      (fun m _ hs => .inr (by rwa [Seen, FecRecovery.step, h3, h4] at hs))
      (fun m _ v hv => .inr (by rwa [FecRecovery.step, h1] at hv))
  refine { hknown with
           returned := ?_, two := ?_, double := ?_, held := ?_, shares := h.shares, only := hkind
           kinds := ?_, missing := ?_, indexed := ?_, unindexed := ?_, stamped := ?_ }
  · exact fun m hm => h.unreturned hm (by rw [hreply]; rfl)
  · rw [absent_share, htwo]
  · rw [← hdouble]
    exact maxErasures_congr h8
  · rw [hstate, park_lookup hlen, if_pos rfl]
  · rw [shareKinds_share h.covers]
    intro k hk
    rcases List.mem_append.1 hk with hold | hnew
    · exact hkinds k hold
    · exact List.mem_singleton.1 hnew
  · rw [absent_share, hmissing]
  · intro m hm
    rw [absent_share] at hm
    rw [hstate, park_parkedBySeq hlen, if_pos]
    rw [hmissing]
    exact List.mem_map_of_mem hm
  · intro m hm hin
    rw [arrivals_share] at hin
    rw [hstate, park_parkedBySeq hlen, if_neg, h.unparked.index m hm]
    rw [hmissing]
    intro hmem
    obtain ⟨m', hm', hseq⟩ := List.mem_map.1 hmem
    exact (mem_absent.1 hm').2 (hseq ▸ hin)
  · intro m hm v hv
    rw [h1] at hv
    exact h.kept m hm v ((taken_spec h.noRestart).2.2 m.1 v hv)

/-- The share is not enough yet and is parked. -/
theorem OpenShare.parks
    (hroom : b.parked.entries.length < MAX_PARKED_GROUPS) {missing : List UInt64}
    (heq : b.tryRecover env kind parity =
      ((taken b parity).park (env.clock 4) env.tie (parity.memberSeqs.headD 0)
        (merged b kind parity) missing, .Pending))
    (hmissing : missing = (lacking ms log).map Prod.fst)
    (htwo : (lacking ms log).length = 2)
    (hdouble : (taken b parity).maxErasures = 2) (hkind : OnlyKind kind (merged b kind parity))
    (hkinds : ∀ k ∈ kindsOf ms log, k = kind) :
    After (Phases ms) log b (.tryRecover env kind parity) := by
  have hstate := congrArg Prod.fst heq
  simp only [groupKey_of_covers h.covers] at hstate
  have hlen : (taken b parity).parked.entries.length < MAX_PARKED_GROUPS := by
    refine lt_of_le_of_lt (unpark_length _ _) ?_
    rw [show (b.noteSeq (maxSeq parity)).parked = b.parked from
      congrArg Parking.parked (noteSeq_parking b _)]
    exact hroom
  have htrack : tracking (b.tryRecover env kind parity).1 = tracking (taken b parity) := by
    rw [hstate]
    exact park_tracking ..
  have hparked := h.parked htrack hstate hlen (congrArg Prod.snd heq) hmissing htwo hdouble
    hkind hkinds
  refine { h.base ?_ ?_ with phase := Or.inr (Or.inl ⟨_, kind, hparked⟩) }
  · unfold Retains
    rw [(Tracking.mk.inj htrack).1]
    exact h.evaluable.retains
  · rw [hstate]
    apply h.foreign.park_own hlen
    intro s hs
    rw [hmissing] at hs
    obtain ⟨m, hm, rfl⟩ := List.mem_map.1 hs
    exact seq_mem (mem_absent.1 hm).1

/-- A share of a group that is still open repairs it, completes it, or parks it. -/
theorem OpenShare.phases_step
    (hroom : b.parked.entries.length < MAX_PARKED_GROUPS)
    (hle : (lacking ms log).length ≤ b.maxErasures)
    (honly : ¬((merged b kind parity).p.isSome ∧ (merged b kind parity).q.isSome) →
      OnlyKind kind (merged b kind parity) ∧ ∀ k ∈ kindsOf ms log, k = kind) :
    After (Phases ms) log b (.tryRecover env kind parity) := by
  have hanswer := h.evaluable.answers h.group h.shares
  have heq : b.tryRecover env kind parity = _ :=
    tryRecover_eq (covers_wellFormed h.group h.covers)
  cases ho : (taken b parity).reconstruct (merged b kind parity) with
  | Recovered frames =>
    rw [ho] at hanswer heq
    subst hanswer
    exact h.repairs heq
  | AlreadyComplete =>
    rw [ho] at hanswer heq
    have hstate : (b.tryRecover env kind parity).1 = taken b parity := congrArg Prod.fst heq
    have hreply : (b.tryRecover env kind parity).2 = .AlreadyComplete := congrArg Prod.snd heq
    refine h.completes ?_ hstate
    by_contra hne
    exact hne (hanswer (h.lossless (congrArg tracking hstate) (by rw [hreply]; rfl) hne))
  | Unrecoverable =>
    -- Only with more absent members than the shares can repair.
    rw [ho] at hanswer heq
    have hstate : (b.tryRecover env kind parity).1 = taken b parity := congrArg Prod.fst heq
    have hreply : (b.tryRecover env kind parity).2 = .Unrecoverable := congrArg Prod.snd heq
    obtain ⟨hne, hcount⟩ := hanswer
    have hl := h.lossless (congrArg tracking hstate) (by rw [hreply]; rfl) hne
    have hmax := maxErasures_congr (taken_parityCount b parity)
    exact absurd (hle.trans_eq hmax.symm) (hcount hl)
  | NeedMore missing =>
    rw [ho] at hanswer heq
    obtain ⟨hmissing, htwo, hdouble, hboth⟩ := hanswer
    obtain ⟨hkind, hkinds⟩ := honly hboth
    exact h.parks hroom heq hmissing htwo hdouble hkind hkinds

end

/-- A share added to shares of one kind: the same kind, or both. -/
theorem onlyKind_add {held : ShareSet}
    (hk : OnlyKind k held) (hsome : held.p.isSome ∨ held.q.isSome)
    (hboth : ¬((ShareSet.add held kind parity).p.isSome ∧
      (ShareSet.add held kind parity).q.isSome)) :
    OnlyKind kind (ShareSet.add held kind parity) ∧ k = kind := by
  obtain ⟨p, q⟩ := held
  cases k <;> cases kind <;> simp_all [OnlyKind, ShareSet.add]

/-- The group's first share. -/
theorem Phases.share_waiting (hgroup : IsGroup ms) (h : Phases ms log b) (hw : Waiting ms log b)
    (hroom : b.parked.entries.length < MAX_PARKED_GROUPS) (hc : Covers kind ms parity)
    (hreset : NoRestart b (maxSeq parity)) (hle : (lacking ms log).length ≤ b.maxErasures)
    (hkept : Kept ms log b (.tryRecover env kind parity))
    (hfresh : After (Fresh ms) log b (.tryRecover env kind parity)) :
    After (Phases ms) log b (.tryRecover env kind parity) := by
  have hheld : heldShares b (parity.memberSeqs.headD 0) = { p := none, q := none } := by
    unfold heldShares
    rw [groupKey_of_covers hc, hw.group]
  have hshares : SharesOf ms (merged b kind parity) := by
    unfold merged
    rw [hheld]
    exact sharesOf_add (by simp) (by simp) hc
  have hshare : OpenShare ms log b env kind parity :=
    { group := hgroup, phases := h, untouched := hw.toUntouched, covers := hc
      noRestart := hreset, shares := hshares, kept := hkept, fresh := hfresh
      unparked := unparked_taken hc fun m hm => Or.inl (hw.index m hm) }
  refine hshare.phases_step hroom hle fun _ => ⟨?_, by simp [hw.noShare]⟩
  unfold merged
  rw [hheld]
  cases kind <;> rfl

/-- Another share of a parked group. -/
theorem Phases.share_parked (hgroup : IsGroup ms) (h : Phases ms log b) (hp : Parked ms log b g k)
    (hroom : b.parked.entries.length < MAX_PARKED_GROUPS) (hc : Covers kind ms parity)
    (hreset : NoRestart b (maxSeq parity)) (hkept : Kept ms log b (.tryRecover env kind parity))
    (hfresh : After (Fresh ms) log b (.tryRecover env kind parity)) :
    After (Phases ms) log b (.tryRecover env kind parity) := by
  have hheld : heldShares b (parity.memberSeqs.headD 0) = g.shares := by
    unfold heldShares
    rw [groupKey_of_covers hc, hp.held]
  have hindex : ∀ m ∈ ms, b.parkedBySeq.lookup m.1 = none ∨
      ∃ g, b.parked.lookup (groupKey ms) = some g ∧ m.1 ∈ g.missing := by
    intro m hm
    by_cases hin : m.1 ∈ came log
    · exact Or.inl (hp.unindexed m hm hin)
    · refine Or.inr ⟨g, hp.held, ?_⟩
      rw [hp.missing]
      exact List.mem_map_of_mem (mem_absent.2 ⟨hm, hin⟩)
  have hshares : SharesOf ms (merged b kind parity) := by
    unfold merged
    rw [hheld]
    exact sharesOf_add hp.shares.p hp.shares.q hc
  have hshare : OpenShare ms log b env kind parity :=
    { group := hgroup, phases := h, untouched := hp.toUntouched, covers := hc
      noRestart := hreset, unparked := unparked_taken hc hindex, shares := hshares
      kept := hkept, fresh := hfresh }
  refine hshare.phases_step hroom (by rw [hp.two, hp.double]) ?_
  unfold merged
  rw [hheld]
  intro hboth
  obtain ⟨honly, rfl⟩ := onlyKind_add hp.only hp.shares.any hboth
  exact ⟨honly, hp.kinds⟩

/-- A share after the repair: everything is accounted for already, so it finds
nothing missing. -/
theorem Phases.share_repaired (hgroup : IsGroup ms) (h : Phases ms log b) (hr : Repaired ms log b)
    (hc : Covers kind ms parity) (hreset : NoRestart b (maxSeq parity)) :
    After (Phases ms) log b (.tryRecover env kind parity) := by
  have hunp := unparked_taken hc fun m hm => Or.inl (hr.index m hm)
  obtain ⟨hadv, -, hpay⟩ := taken_spec hreset
  have hret : Retains (taken b parity) ms := fun m hm t bytes hlook =>
    h.retains m hm t bytes (hpay _ _ hlook)
  have hs : SharesOf ms (merged b kind parity) := by
    unfold merged heldShares
    rw [groupKey_of_covers hc, hr.group]
    exact sharesOf_add (by simp) (by simp) hc
  have hnothing : membersIn (taken b parity) .Missing ms = [] := by
    apply List.filter_eq_nil_iff.2
    intro m hm hst
    exact (memberState_eq_missing.1 (of_decide_eq_true hst)).2.1
      (hadv.accounted h.remembers.ordered.tracks _ (hr.accounted m hm))
  have heq : b.tryRecover env kind parity = _ := tryRecover_eq (covers_wellFormed hgroup hc)
  rw [reconstruct_members hgroup.wire hs hret, if_pos hnothing] at heq
  have hstep : step b (.tryRecover env kind parity) =
      (taken b parity, .outcome .AlreadyComplete) := by
    simp only [step, heq]
  have hrem := h.remembers.step (c := .tryRecover env kind parity) hreset
  have hlate : (taken b parity).lateRecoveries = b.lateRecoveries :=
    (unpark_lateRecoveries _ _).trans
      (congrArg Parking.lateRecoveries (noteSeq_parking b (maxSeq parity)))
  rw [hstep] at hrem
  simp only [After, logged, hstep]
  refine { remembers := hrem, retains := hret
           foreign := (h.foreign.of_parking (noteSeq_parking b _)).unpark _
           arrived := fun m hm _ =>
             hadv.accounted h.remembers.ordered.tracks _ (hr.accounted m hm)
           phase := Or.inr (Or.inr { hunp with accounted := ?_, returned := ?_ }) }
  · exact fun m hm => hadv.accounted h.remembers.ordered.tracks _ (hr.accounted m hm)
  · intro m hm hnot
    rw [arrivals_share] at hnot
    rw [returned_unchanged (by rfl) hlate]
    exact hr.returned m hm hnot

/-- Any share of the group, in any phase. -/
theorem Phases.share_own (hgroup : IsGroup ms) (h : Phases ms log b)
    (hroom : b.parked.entries.length < MAX_PARKED_GROUPS) (hc : Covers kind ms parity)
    (hreset : NoRestart b (maxSeq parity))
    (hrep : kindsOf ms log = [] →
      (lacking ms log).length ≤ b.maxErasures)
    (hkept : Kept ms log b (.tryRecover env kind parity))
    (hfresh : After (Fresh ms) log b (.tryRecover env kind parity)) :
    After (Phases ms) log b (.tryRecover env kind parity) := by
  rcases h.phase with hw | ⟨g, k, hp⟩ | hr
  · exact h.share_waiting hgroup hw hroom hc hreset (hrep hw.noShare) hkept hfresh
  · exact h.share_parked hgroup hp hroom hc hreset hkept hfresh
  · exact h.share_repaired hgroup hr hc hreset

/-! ## A late member -/

/-- One of the two absent members arrives: the other is the only one left. -/
theorem absent_late (hgroup : IsGroup ms) (htwo : (lacking ms log).length = 2)
    (hm : (seq, plaintext) ∈ ms) (hnew : seq ∉ came log) :
    (lacking ms (log ++ [(Call.observeData env seq plaintext, r)])).length = 1 := by
  have hfilter : lacking ms (log ++ [(Call.observeData env seq plaintext, r)]) =
      (lacking ms log).filter (·.1 ≠ seq) := by
    unfold lacking absent
    rw [List.filter_filter]
    apply List.filter_congr
    intro m _
    simp only [arrivals_snoc, not_or, Bool.decide_and, Bool.and_comm, ne_eq]
  have hmem : (seq, plaintext) ∈ lacking ms log := mem_absent.2 ⟨hm, hnew⟩
  obtain ⟨x, y, hxy⟩ := List.length_eq_two.1 htwo
  have hnodup : ((lacking ms log).map Prod.fst).Nodup :=
    hgroup.nodup.sublist (List.filter_sublist.map Prod.fst)
  rw [hxy] at hnodup hmem hfilter
  have hne : x.1 ≠ y.1 := by simpa using hnodup
  rw [hfilter]
  rcases List.mem_cons.1 hmem with rfl | hmem
  · simp [Ne.symm hne]
  · obtain rfl := List.mem_singleton.1 hmem
    simp [hne]

/-- The state the recheck evaluates in. -/
theorem evaluable_released (hgroup : IsGroup ms) (h : Base ms log b) (hu : Untouched ms log b)
    (hm : (seq, plaintext) ∈ ms) (hreset : NoRestart b seq) {key : UInt64} :
    Evaluable ms (log ++ [(Call.observeData env seq plaintext, r)])
      (released (stored b env seq plaintext) seq key) := by
  obtain ⟨hnote, hle⟩ := advances_noteSeq hreset
  obtain ⟨hacc, hmarked⟩ := advances_accept hle (env.clock 0) (env.clock 1) plaintext
  have hstored : Advances b (stored b env seq plaintext) := hnote.trans hacc
  have htrack := released_tracking (stored b env seq plaintext) seq key
  have hrel : Advances (stored b env seq plaintext)
      (released (stored b env seq plaintext) seq key) := advances_of_tracking htrack
  obtain ⟨h1, -, h3, h4, -⟩ := Tracking.mk.inj htrack
  have hseen : ∀ s, Seen (released (stored b env seq plaintext) seq key) s →
      s = seq ∨ Seen b s := by
    intro s hs
    unfold Seen at hs
    rw [h3, h4] at hs
    rcases seen_accept hs with hself | hold
    · exact Or.inl hself
    · exact Or.inr ((seen_noteSeq hreset s).1 hold)
  have hpay : ∀ s v, (released (stored b env seq plaintext) seq key).payloads.lookup s = some v →
      (s = seq ∧ v.2 = plaintext) ∨ b.payloads.lookup s = some v := by
    intro s v hv
    rw [h1] at hv
    rcases lookup_accept hv with ⟨hself, rfl⟩ | hold
    · exact Or.inl ⟨hself, rfl⟩
    · exact Or.inr (noteSeq_payloads_shrinks b seq s v hold)
  refine
    { hu.toKnown.adds (fun s hs => arrivals_snoc.2 (.inl hs))
        (fun m _ hs => (hseen m.1 hs).imp_left fun hself => arrivals_snoc.2 (.inr hself))
        (fun m _ v hv =>
          (hpay m.1 v hv).imp_left fun hself => arrivals_snoc.2 (.inr hself.1)) with
      retains := retains_of_own hgroup h.retains hm hpay
      arrived := ?_ }
  intro m hmem hin
  apply hrel.accounted (hstored.tracks h.remembers.ordered.tracks)
  rcases arrivals_snoc.1 hin with hold | hself
  · exact hstored.accounted h.remembers.ordered.tracks _ (h.arrived m hmem hold)
  · rw [hself]
    exact hmarked

theorem one_le_maxErasures (b : FecRecoveryBuffer) : 1 ≤ b.maxErasures := by
  unfold maxErasures
  split <;> omega

/-- Taking the group out of the parking half by its late member. -/
theorem unparked_released (hp : Parked ms log b g k)
    (hpark : parking b' = parking b) (seq : UInt64) :
    Unparked ms (released b' seq (groupKey ms)) := by
  obtain ⟨h1, h2, -⟩ := Parking.mk.inj hpark
  unfold released
  refine { group := ?_, index := ?_ }
  · rw [unpark_lookup, if_pos rfl]
  · intro m hm
    rw [unpark_parkedBySeq]
    by_cases hin : m.1 ∈ came log
    · have hnone : (AList.erase seq b'.parkedBySeq).lookup m.1 = none := by
        by_cases hself : m.1 = seq
        · rw [hself]
          exact AList.lookup_erase _ _
        · rw [AList.lookup_erase_ne hself, h2]
          exact hp.unindexed m hm hin
      rw [hnone]
      exact ite_self _
    · rw [if_pos]
      refine ⟨g, ?_, ?_⟩
      · rw [h1]
        exact hp.held
      · rw [hp.missing]
        exact List.mem_map_of_mem (mem_absent.2 ⟨hm, hin⟩)

/-- A member of the parked group arrives. -/
structure LateMember (ms : List Member) (log : List (Call × Reply)) (b : FecRecoveryBuffer)
    (g : ParkedGroup) (k : ParityKind) (env : CallEnv) (seq : UInt64) (plaintext : Bytes) :
    Prop where
  group : IsGroup ms
  phases : Phases ms log b
  parked : Parked ms log b g k
  member : (seq, plaintext) ∈ ms
  new : seq ∉ came log
  noRestart : NoRestart b seq
  fresh : After (Fresh ms) log b (.observeData env seq plaintext)

theorem released_stored_late (b : FecRecoveryBuffer) (env : CallEnv) (seq : UInt64)
    (plaintext : Bytes) (key : UInt64) :
    (released (stored b env seq plaintext) seq key).lateRecoveries = b.lateRecoveries :=
  (released_lateRecoveries ..).trans (Parking.mk.inj (stored_parking b env seq plaintext)).2.2

section

variable (h : LateMember ms log b g k env seq plaintext)
include h

theorem LateMember.evaluable :
    Evaluable ms (logged log b (.observeData env seq plaintext))
      (released (stored b env seq plaintext) seq (groupKey ms)) :=
  evaluable_released h.group h.phases.toBase h.parked.toUntouched h.member h.noRestart

/-- Its companion is the one member still absent. -/
theorem LateMember.absent_length :
    (lacking ms (logged log b (.observeData env seq plaintext))).length = 1 :=
  absent_late h.group h.parked.two h.member h.new

theorem LateMember.foreign :
    Foreign (ms.map Prod.fst) (groupKey ms)
      (released (stored b env seq plaintext) seq (groupKey ms)) := by
  have hfor := h.phases.foreign.of_parking (stored_parking b env seq plaintext)
  have herase : Foreign (ms.map Prod.fst) (groupKey ms)
      { stored b env seq plaintext with
        parkedBySeq := (stored b env seq plaintext).parkedBySeq.erase seq } :=
    { parked := hfor.parked, own := hfor.own
      index := fun s k' hlook => hfor.index s k' (shrinks_erase _ seq s k' hlook) }
  exact herase.unpark _

/-- The call is fresh and the member is waited for, so the parked shares are
evaluated. -/
theorem LateMember.rechecks :
    (b.observeData env seq plaintext).1 =
      (stored b env seq plaintext).recheckParkedFor
        { env with clock := fun i => env.clock (i + 2) } seq ∧
    (stored b env seq plaintext).parkedBySeq.lookup seq = some (groupKey ms) ∧
    (stored b env seq plaintext).parked.lookup (groupKey ms) = some g := by
  obtain ⟨hparked, hindex, -⟩ := Parking.mk.inj (stored_parking b env seq plaintext)
  have hheld : (stored b env seq plaintext).parked.lookup (groupKey ms) = some g := by
    rw [hparked]
    exact h.parked.held
  have hfresh : ¬Seen (b.noteSeq seq) seq := fun hs =>
    h.new (h.parked.seen (seq, plaintext) h.member ((seen_noteSeq h.noRestart seq).1 hs))
  have hsome : ¬(stored b env seq plaintext).parked.entries = [] := by
    intro hnil
    have hnone : (stored b env seq plaintext).parked.lookup (groupKey ms) = none := by
      unfold AList.lookup
      rw [hnil]
      rfl
    rw [hnone] at hheld
    simp at hheld
  refine ⟨?_, ?_, hheld⟩
  · rw [observeData_fresh hfresh, if_neg hsome]
  · rw [hindex]
    exact h.parked.indexed (seq, plaintext) (mem_absent.2 ⟨h.member, h.new⟩)

/-- Any answer but a recovery would leave the companion outstanding, so it is
given with nothing lost. -/
theorem LateMember.lossless
    (htrack : tracking (b.observeData env seq plaintext).1 =
      tracking (released (stored b env seq plaintext) seq (groupKey ms)))
    (hlate : (b.observeData env seq plaintext).1.lateRecoveries = b.lateRecoveries) :
    Lossless ms (logged log b (.observeData env seq plaintext))
      (released (stored b env seq plaintext) seq (groupKey ms)) := by
  have hne : lacking ms (logged log b (.observeData env seq plaintext)) ≠ [] := by
    intro hnil
    have hone := h.absent_length
    rw [hnil] at hone
    simp at hone
  obtain ⟨m, hmem⟩ := List.exists_mem_of_ne_nil _ hne
  apply lossless_of_fresh htrack h.fresh
  apply outstanding_of_absent hmem
  refine (returned_unchanged rfl hlate).trans ?_
  exact h.parked.returned m (mem_absent.1 hmem).1

/-- The evaluation recovers the companion. -/
theorem LateMember.repairs
    {frames : List Member}
    (hframes : frames =
      lacking ms (logged log b (.observeData env seq plaintext)))
    (hstate : (b.observeData env seq plaintext).1 =
      { deliverAll { env with clock := fun i => env.clock (i + 2) } 0
          (released (stored b env seq plaintext) seq (groupKey ms)) frames with
        lateRecoveries :=
          (deliverAll { env with clock := fun i => env.clock (i + 2) } 0
            (released (stored b env seq plaintext) seq (groupKey ms)) frames).lateRecoveries ++
            frames }) :
    Phases ms (logged log b (.observeData env seq plaintext))
      (b.observeData env seq plaintext).1 := by
  obtain ⟨-, -, -, -, unlocked, hlate, hun⟩ :=
    observeData_spec h.phases.remembers.ordered env plaintext h.noRestart
  have hunp := unparked_released h.parked (stored_parking b env seq plaintext) seq
  have hdel := deliverAll_parking { env with clock := fun i => env.clock (i + 2) } 0
    (released (stored b env seq plaintext) seq (groupKey ms)) frames
  obtain ⟨hd1, hd2, hd3⟩ := Parking.mk.inj hdel
  have hunlocked : unlocked = frames := by
    rw [hstate] at hlate
    apply List.append_cancel_left
    rw [← hlate, ← released_stored_late b env seq plaintext (groupKey ms), ← hd3]
  have hsub : frames ⊆ ms := by
    rw [hframes]
    exact fun m hmem => (mem_absent.1 hmem).1
  have harrived := h.phases.arrived_observe env plaintext h.noRestart
  refine { remembers := h.phases.remembers.step (c := .observeData env seq plaintext) h.noRestart
           retains := ?_, foreign := ?_, arrived := harrived, phase := Or.inr (Or.inr ?_) }
  · rw [hstate]
    exact retains_deliverAll h.group h.evaluable.retains hsub _ 0
  · rw [hstate]
    have hfor := h.foreign.of_parking hdel
    exact { parked := hfor.parked, own := hfor.own, index := hfor.index }
  · have hunp' : Unparked ms (b.observeData env seq plaintext).1 :=
      hunp.congr (by rw [hstate]; exact hd1) (by rw [hstate]; exact hd2)
    refine { hunp' with accounted := ?_, returned := ?_ }
    · intro m hmem
      by_cases hin : m.1 ∈ came (logged log b (.observeData env seq plaintext))
      · exact harrived m hmem hin
      · refine (hun m ?_).2.2
        rw [hunlocked, hframes]
        exact mem_absent.2 ⟨hmem, hin⟩
    · intro m hmem hnot
      refine (returned_late rfl hlate m.1).trans ?_
      rw [h.parked.returned m hmem, hunlocked, hframes]
      exact filter_seq_eq h.group hmem (decide_eq_true hnot)

/-- A late member unlocks the parked group: its companion becomes a late
recovery. -/
theorem LateMember.phases_step : After (Phases ms) log b (.observeData env seq plaintext) := by
  have hanswer := h.evaluable.answers h.group h.parked.shares
  have hone := h.absent_length
  have hreleased := released_stored_late b env seq plaintext (groupKey ms)
  obtain ⟨hstate, hkey, hheld⟩ := h.rechecks
  rw [recheckParkedFor_eq hkey hheld] at hstate
  cases ho : (released (stored b env seq plaintext) seq (groupKey ms)).reconstruct g.shares with
  | Recovered frames =>
    rw [ho] at hanswer hstate
    exact h.repairs hanswer hstate
  | AlreadyComplete =>
    rw [ho] at hanswer hstate
    have hlate := (congrArg FecRecoveryBuffer.lateRecoveries hstate).trans hreleased
    have hempty := hanswer (h.lossless (congrArg tracking hstate) hlate)
    rw [hempty] at hone
    simp at hone
  | Unrecoverable =>
    rw [ho] at hanswer hstate
    have hlate := (congrArg FecRecoveryBuffer.lateRecoveries hstate).trans hreleased
    have hcount := hanswer.2 (h.lossless (by rw [hstate]; rfl) hlate)
    have hmax := one_le_maxErasures (released (stored b env seq plaintext) seq (groupKey ms))
    exact absurd (hone.trans_le hmax) hcount
  | NeedMore missing =>
    rw [ho] at hanswer
    obtain ⟨-, htwo, -⟩ := hanswer
    rw [hone] at htwo
    simp at htwo

end

/-! ## Whole runs -/

/-- A group that is parked has members outstanding. -/
theorem Parked.outstanding (hp : Parked ms log b g k) : Outstanding ms log b := by
  have hne : lacking ms log ≠ [] := by
    intro hnil
    have htwo := hp.two
    rw [hnil] at htwo
    simp at htwo
  obtain ⟨m, hm⟩ := List.exists_mem_of_ne_nil _ hne
  exact outstanding_of_absent hm (hp.returned m (mem_absent.1 hm).1)

theorem Phases.observe_own (hgroup : IsGroup ms) (h : Phases ms log b)
    (hm : (seq, plaintext) ∈ ms) (hreset : NoRestart b seq)
    (hbefore : Fresh ms log b) (hfresh : After (Fresh ms) log b (.observeData env seq plaintext)) :
    After (Phases ms) log b (.observeData env seq plaintext) := by
  have hnotParked : b.parked.lookup (groupKey ms) = none →
      ∀ g k, Parked ms log b g k → seq ∈ came log ∧ Seen b seq := by
    intro hnone g k hp
    rw [hp.held] at hnone
    simp at hnone
  rcases h.phase with hw | ⟨g, k, hp⟩ | hr
  · exact h.observe_own_plain hgroup hm hreset (hw.index _ hm) (hnotParked hw.group)
  · by_cases hin : seq ∈ came log
    · have hseen : Seen b seq :=
        (h.arrived _ hm hin).resolve_right (hbefore.above hp.outstanding _ hm)
      exact h.observe_own_plain hgroup hm hreset (hp.unindexed _ hm hin)
        fun _ _ _ => ⟨hin, hseen⟩
    · exact LateMember.phases_step
        { group := hgroup, phases := h, parked := hp, member := hm, new := hin
          noRestart := hreset, fresh := hfresh }
  · exact h.observe_own_plain hgroup hm hreset (hr.index _ hm) (hnotParked hr.group)

theorem not_mem_expiredKeys {key : UInt64} (h : b.parked.lookup key = none) (now : Instant) :
    key ∉ expiredKeys b now := by
  intro hmem
  obtain ⟨g, hg, rfl⟩ := List.mem_map.1 hmem
  have hentry := (List.mem_filter.1 hg).1
  have hkeys : g.1 ∈ b.parked := List.mem_map_of_mem hentry
  rw [AList.lookup_eq_none] at h
  exact h hkeys

theorem Phases.not_expired (h : Phases ms log b) (hfresh : Fresh ms log b)
    (hkept : Kept ms log b (.tick now)) : groupKey ms ∉ expiredKeys b now := by
  rcases h.phase with hw | ⟨g, k, hp⟩ | hr
  · exact not_mem_expiredKeys hw.group now
  · obtain ⟨hages, hnone⟩ := hkept hp.outstanding
    by_cases hany : ∃ m ∈ ms, m.1 ∈ came log
    · -- a plaintext that was there when the group was parked is older than the parked group
      obtain ⟨m, hm, hin⟩ := hany
      obtain ⟨v, hv⟩ := exists_lookup (hfresh.retained hp.outstanding m hm hin)
      have hstamp := hp.stamped m hm v hv
      have hage := hages m hm v hv
      intro hmem
      obtain ⟨⟨key, g'⟩, hg', rfl⟩ := List.mem_map.1 hmem
      obtain ⟨hentry, hold⟩ := List.mem_filter.1 hg'
      obtain rfl : g' = g := Option.some.inj
        ((AList.mem_lookup_iff.mpr hentry).symm.trans hp.held)
      exact absurd (of_decide_eq_true hold)
        (Nat.not_le.mpr ((Nat.sub_le_sub_left hstamp now).trans_lt hage))
    · exact hnone fun m hm hin => hany ⟨m, hm, hin⟩
  · exact not_mem_expiredKeys hr.group now

/-- One call, whoever it is for. -/
theorem Phases.step (hgroup : IsGroup ms) (h : Phases ms log b) {c : Call} (hc : Regards ms c)
    (hcond : Conditions ms log b c) (hfresh : After (Fresh ms) log b c) :
    After (Phases ms) log b c := by
  have hroom := hcond.fresh.room
  cases c with
  | observeData env seq plaintext =>
    by_cases hmine : seq ∈ ms.map Prod.fst
    · exact h.observe_own hgroup (hc hmine) hcond.noReset hcond.fresh hfresh
    · exact h.step_other hgroup hroom hcond.noReset hmine
  | tryRecover env kind parity =>
    rcases hc with hcov | hoff
    · exact h.share_own hgroup hroom hcov hcond.noReset (hcond.repairable hcov.seqs) hcond.kept
        hfresh
    · exact h.step_other hgroup hroom hcond.noReset hoff
  | takeLateRecoveries => exact h.step_other hgroup hroom trivial trivial
  | tick now => exact h.step_other hgroup hroom trivial (h.not_expired hcond.fresh hcond.kept)

theorem phases_new (ms : List Member) (parityCount : UInt8) (now : Instant) :
    Phases ms [] (FecRecoveryBuffer.new parityCount now) where
  remembers := remembers_new parityCount now
  retains := fun m _ t bytes h => by simp [FecRecoveryBuffer.new, withParams] at h
  foreign := foreign_new parityCount now
  arrived := by simp [arrivals]
  phase := Or.inl
    { seen := fun m _ hs => by simp [Seen, FecRecoveryBuffer.new, withParams] at hs
      payload := fun m _ hp => by
        simp only [FecRecoveryBuffer.new, withParams] at hp
        exact absurd hp (AList.notMem_empty _)
      returned := fun m _ => by simp [returned, FecRecoveryBuffer.new, withParams]
      group := by simp [FecRecoveryBuffer.new, withParams]
      index := fun m _ => by simp [FecRecoveryBuffer.new, withParams]
      noShare := rfl }

/-- Over a run that meets the conditions the phase invariant holds throughout. -/
theorem phases_run (hgroup : IsGroup ms) {parityCount : UInt8}
    (hcalls : ∀ c ∈ calls, Regards ms c)
    (hcond : Mealy.Along FecRecovery.step (Conditions ms) []
      (FecRecoveryBuffer.new parityCount now) (calls ++ [.takeLateRecoveries])) :
    Phases ms (Mealy.log FecRecovery.step (FecRecoveryBuffer.new parityCount now) calls)
      (Mealy.run FecRecovery.step (FecRecoveryBuffer.new parityCount now) calls) := by
  have hnext := Mealy.along_next (F := Fresh ms) (fun _ _ _ hc => hc.fresh) hcond
  have hregards : Mealy.Along FecRecovery.step (fun _ _ c => Regards ms c) []
      (FecRecoveryBuffer.new parityCount now) calls :=
    Mealy.along_of_forall (fun _ _ _ hc => hc) hcalls
  exact Mealy.invariant_along
    (fun log b c hI hG => hI.step hgroup hG.2 hG.1.1 hG.1.2)
    (phases_new ms parityCount now) (Mealy.along_and hnext hregards)

/-- With enough of the group arriving by the end, it is neither waiting nor
parked. -/
theorem Phases.repaired (h : Phases ms log b) (hshare : kindsOf ms log ≠ [])
    (henough : (lacking ms log).length ≤ 1 ∨
      .P ∈ kindsOf ms log ∧ .Q ∈ kindsOf ms log) :
    Repaired ms log b := by
  rcases h.phase with hw | ⟨g, k, hp⟩ | hr
  · exact absurd hw.noShare hshare
  · rcases henough with hone | ⟨hP, hQ⟩
    · rw [hp.two] at hone
      omega
    · have hkP := hp.kinds .P hP
      have hkQ := hp.kinds .Q hQ
      rw [← hkP] at hkQ
      simp at hkQ
  · exact hr

end

/-! ## From the sender's group -/

/-- The calls a run may make: the group's own frames as sent and the shares of
`g`, and anything that names none of its members. -/
def Involves (frames : List Frame) (g : FecGroup) : Call → Prop
  | .observeData _ seq plaintext =>
      seq ∈ frames.map Frame.seq → (seq, plaintext) ∈ frames.map Frame.member
  | .tryRecover _ kind parity =>
      g.share kind = some parity ∨ ∀ s ∈ parity.memberSeqs, s ∉ frames.map Frame.seq
  | .takeLateRecoveries => True
  | .tick _ => True

theorem map_member_fst (frames : List Frame) :
    (frames.map Frame.member).map Prod.fst = frames.map Frame.seq := by
  simp [Frame.member, Function.comp_def]

/-- A sender fed exactly one group's worth of frames completes that group. -/
theorem completes_of_full {groupSize parityCount : UInt8} {frames : List Frame} {g : FecGroup}
    (hsize : 2 ≤ groupSize) (hfull : frames.length = groupSize.toNat)
    (hg : sendAll (FecSender.new groupSize parityCount) frames = [g]) :
    Completes (FecSender.new groupSize parityCount) (frames.map Frame.member) g := by
  obtain ⟨groups, hcut, hall⟩ := sendAll_completes (holds_new groupSize parityCount) frames
  rw [hg] at hall
  cases hall with
  | cons hone hrest =>
    rename_i ms rest
    cases hrest
    have hlen : ms.length = groupSize.toNat := by
      have hpos : 2 ≤ groupSize.toNat := UInt8.le_iff_toNat_le.1 hsize
      rw [hone.size]
      simp only [FecSender.new]
      omega
    have hprefix : ms <+: frames.map Frame.member := by simpa using hcut
    have heq := hprefix.eq_of_length (by rw [hlen, List.length_map, hfull])
    rw [← heq]
    exact hone

/-- Any one or two erasures of a sender's group are repaired: each member that
never arrives is returned exactly once, with the bytes that were sent. -/
theorem erasures_repaired (groupSize parityCount : UInt8) (frames : List Frame) (g : FecGroup)
    (now : Instant) (calls : List Call)
    (hsize : 2 ≤ groupSize) (hfull : frames.length = groupSize.toNat)
    (hseqs : (frames.map Frame.seq).Nodup)
    (hlens : ∀ f ∈ frames, f.plaintext.length ≤ 65535)
    (hg : sendAll (FecSender.new groupSize parityCount) frames = [g])
    (hcalls : ∀ c ∈ calls, Involves frames g c)
    (hcond : Mealy.Along step (Conditions (frames.map Frame.member)) []
      (FecRecoveryBuffer.new parityCount now) (calls ++ [.takeLateRecoveries]))
    (hshare : shareKinds (frames.map Frame.member) calls ≠ [])
    (henough : (absent (frames.map Frame.member) calls).length ≤ 1 ∨
      .P ∈ shareKinds (frames.map Frame.member) calls ∧
        .Q ∈ shareKinds (frames.map Frame.member) calls) :
    ∀ m ∈ absent (frames.map Frame.member) calls,
      ((Mealy.log step (FecRecoveryBuffer.new parityCount now)
        (calls ++ [.takeLateRecoveries])).flatMap (·.2.recovered)).filter (·.1 = m.1) = [m] := by
  have hcompletes := completes_of_full hsize hfull hg
  have hgroup : IsGroup (frames.map Frame.member) :=
    { wire :=
        { size := by
            rw [List.length_map, hfull]
            exact Nat.le_of_lt_succ groupSize.toNat_lt
          lens := by
            intro m hm
            obtain ⟨f, hf, rfl⟩ := List.mem_map.1 hm
            exact hlens f hf }
      nodup := by rwa [map_member_fst]
      nonempty := by
        intro hnil
        have hpos : 2 ≤ groupSize.toNat := UInt8.le_iff_toNat_le.1 hsize
        rw [List.map_eq_nil_iff] at hnil
        rw [hnil, List.length_nil] at hfull
        omega }
  have hregards : ∀ c ∈ calls, Regards (frames.map Frame.member) c := by
    intro c hc
    have hinv := hcalls c hc
    cases c with
    | observeData env seq plaintext =>
        intro hmine
        rw [map_member_fst] at hmine
        exact hinv hmine
    | tryRecover env kind parity =>
        rcases hinv with hown | hoff
        · exact Or.inl (hcompletes.covers hown)
        · exact Or.inr (by rwa [map_member_fst])
    | takeLateRecoveries => trivial
    | tick now => trivial
  have hphases := phases_run hgroup hregards hcond
  have hrepaired := hphases.repaired (by rwa [kindsOf, Mealy.map_fst_log])
    (by rwa [lacking, kindsOf, Mealy.map_fst_log])
  intro m hm
  have hret := hrepaired.returned m (mem_absent.1 hm).1
    (by rw [came, Mealy.map_fst_log]; exact (mem_absent.1 hm).2)
  rw [Mealy.log_append, List.flatMap_append]
  simpa [returned, step, takeLateRecoveries, Reply.recovered] using hret

/-- Frames 10 and 11 of a group of three are lost.  `P` parks the group, another
frame and a repeated `P` pass, and `Q` returns both. -/
theorem erasures_repaired_two :
    let frames : List Frame :=
      [⟨10, [1, 2, 3], 0⟩, ⟨11, [4, 5], 1⟩, ⟨12, [7, 8, 9, 10], 0⟩]
    let p : FecParityPayload := ⟨[10, 11, 12], [3, 2, 4], [2, 15, 10, 10]⟩
    let q : FecParityPayload := ⟨[10, 11, 12], [3, 2, 4], [21, 40, 39, 40]⟩
    let env : CallEnv := ⟨fun _ => 0, 0⟩
    let calls : List Call :=
      [.observeData env 12 [7, 8, 9, 10], .tryRecover env .P p, .observeData env 40 [6],
        .tryRecover env .P p, .tick 1000, .tryRecover env .Q q, .observeData env 12 [7, 8, 9, 10]]
    ∀ m ∈ absent (frames.map Frame.member) calls,
      ((Mealy.log step (FecRecoveryBuffer.new 2 0)
        (calls ++ [.takeLateRecoveries])).flatMap (·.2.recovered)).filter (·.1 = m.1) = [m] := by
  intro frames p q env calls
  have hg : sendAll (FecSender.new 3 2) frames = [⟨p, some q, [0, 1, 0]⟩] := by decide +kernel
  refine erasures_repaired 3 2 frames ⟨p, some q, [0, 1, 0]⟩ 0 calls (by decide) (by decide)
    (by decide) (by decide) hg ?_ (by decide +kernel) (by decide +kernel)
    (Or.inr (by decide +kernel))
  intro c hc
  simp only [calls, List.mem_cons, List.not_mem_nil, or_false] at hc
  rcases hc with rfl | rfl | rfl | rfl | rfl | rfl | rfl
  · exact fun _ => by decide
  · exact Or.inl rfl
  · intro hmine
    exact absurd hmine (by decide)
  · exact Or.inl rfl
  · trivial
  · exact Or.inl rfl
  · exact fun _ => by decide

/-- Both frames of a group of two are lost.  `P` parks the group, which is given up two seconds
later; `Q` parks it again, and nothing is returned. -/
theorem parked_pair_given_up : let frames : List Frame := [⟨10, [1, 2, 3], 0⟩, ⟨11, [4, 5], 1⟩]
    let p : FecParityPayload := ⟨[10, 11], [3, 2], [5, 7, 3]⟩
    let q : FecParityPayload := ⟨[10, 11], [3, 2], [9, 8, 3]⟩
    let env (now : Instant) : CallEnv := ⟨fun _ => now, 0⟩
    let calls : List Call :=
      [.tryRecover (env 0) .P p, .tick 2000000000, .tryRecover (env 2000000000) .Q q]
    sendAll (FecSender.new 2 2) frames = [⟨p, some q, [0, 1]⟩] ∧
      Mealy.Along step (fun log b c => NoReset b c ∧ Fresh (frames.map Frame.member) log b ∧
        Repairable (frames.map Frame.member) log b c) []
        (FecRecoveryBuffer.new 2 0) (calls ++ [.takeLateRecoveries]) ∧
      (Mealy.log step (FecRecoveryBuffer.new 2 0)
        (calls ++ [.takeLateRecoveries])).flatMap (·.2.recovered) = [] := by
  decide +kernel

end Mlvpn.Ports.FecRecoveryRepair
