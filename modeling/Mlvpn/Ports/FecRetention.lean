import Mlvpn.Ports.FecRecoveryBounds

/-!
# Retained plaintexts are remembered

The buffer keeps plaintexts for two seconds and sequence numbers for two generations, which end
after two seconds or when they are full.  A plaintext must not outlive the memory of its number.

The plaintexts are retained in the order of their times, so a tick drops all that have expired.
A retained number is of the current generation, or its plaintext came before the last rotation
and has expired when the next one is due.  The exception is a number whose own mark fills the
generation: it is of the previous generation at once, while its plaintext is stored at a later
reading of the clock.

## Main results

* `kept_accept`: a mark with its plaintext keeps the order and the generations.
* `retained_remembered`: in every run in which no call fills a generation, every retained number
  is remembered.
* `retained_forgotten`: a run in which one is not.
-/

namespace Mlvpn.Ports.FecRetention

open Verified AssocMap Protocol FecSend FecRecovery FecRecoveryBuffer FecRecoveryOps
open FecRecoveryBounds

/-! ## The clock -/

/-- What a call reads from the clock. -/
def reads : Call → List Instant
  | .observeData env _ _ =>
      [env.clock 0, env.clock 1, env.clock 2, env.clock 3, env.clock 4, env.clock 5]
  | .tryRecover env _ _ => [env.clock 0, env.clock 1, env.clock 2, env.clock 3, env.clock 4]
  | .takeLateRecoveries => []
  | .tick now => [now]

/-- No reading is before the one before it. -/
def InOrder (now : Instant) (calls : List Call) : Prop :=
  (now :: calls.flatMap reads).IsChain (· ≤ ·)

/-! ## The order of the plaintexts -/

/-- The plaintexts of `order` were stored one after the other. -/
def Sorted (order : List UInt64) (m : Payloads) : Prop :=
  order.Pairwise fun s s' => ∀ v v', m.lookup s = some v → m.lookup s' = some v' → v.1 ≤ v'.1

variable {order order' : List UInt64} {m m' : Payloads} {b b' : FecRecoveryBuffer}
  {now t t' : Instant} {seq s : UInt64} {plaintext : Bytes}

/-- What is dropped is dropped from the front. -/
theorem Sorted.drop (h : Sorted order m) (hsuffix : order' <:+ order) (hshrinks : Shrinks m m') :
    Sorted order' m' :=
  (h.sublist hsuffix.sublist).imp fun hle v v' hv hv' =>
    hle v v' (hshrinks _ v hv) (hshrinks _ v' hv')

theorem evictOver_suffix (limit : Nat) (order : List UInt64) (m : Payloads) :
    (evictOver limit order m).1 <:+ order := by
  induction order generalizing m with
  | nil => exact List.suffix_refl _
  | cons seq order ih =>
    rw [evictOver]
    split
    · exact (ih _).trans (List.suffix_cons seq order)
    · exact List.suffix_refl _

/-- The newest number is not evicted. -/
theorem evictOver_getLast? {limit : Nat} (hlimit : 0 < limit) (order : List UInt64)
    (m : Payloads) : (evictOver limit order m).1.getLast? = order.getLast? := by
  induction order generalizing m with
  | nil => rfl
  | cons seq order ih =>
    rw [evictOver]
    split
    case isTrue hlong =>
      cases order with
      | nil => exact absurd hlong (Nat.not_lt.mpr hlimit)
      | cons next order => rw [ih, List.getLast?_cons_cons]
    case isFalse => rfl

/-- What expiry leaves is in order and has not expired. -/
theorem expirePayloads_sorted (ttl now : Nat) (hsorted : Sorted order m)
    (hretained : Retained order m) :
    Sorted (expirePayloads ttl now order m).1 (expirePayloads ttl now order m).2 ∧
      ∀ s v, (expirePayloads ttl now order m).2.lookup s = some v → now - v.1 < ttl := by
  induction order generalizing m with
  | nil =>
    refine ⟨hsorted, fun s v hv => ?_⟩
    have hmem : s ∈ m := mem_of_lookup hv
    exact absurd ((hretained.mem_iff s).mpr hmem) List.not_mem_nil
  | cons seq order ih =>
    have hpop := ih (hsorted.drop (List.suffix_cons seq order) (shrinks_erase m seq)) hretained.pop
    rw [expirePayloads]
    cases hlook : m.lookup seq with
    | none => exact hpop
    | some w =>
      dsimp only
      split
      case isTrue => exact hpop
      case isFalse hfresh =>
        -- The front has not expired, and everything behind it came later.
        have hfront : now - w.1 < ttl := Nat.lt_of_not_le fun hle => hfresh (decide_eq_true hle)
        refine ⟨hsorted, fun s v hv => ?_⟩
        have hmem : s ∈ m := mem_of_lookup hv
        rcases List.mem_cons.mp ((hretained.mem_iff s).mpr hmem) with rfl | hs
        · rw [hlook] at hv
          cases hv
          exact hfront
        · have hle := (List.pairwise_cons.mp hsorted).1 s hs w v hlook hv
          exact (Nat.sub_le_sub_left hle now).trans_lt hfront

/-! ## The generations -/

/-- Everything retained came in order and by the time `now`, and is of the current generation,
which has room for `n` numbers more, or came before the last rotation. -/
structure Kept (n : Nat) (now : Instant) (b : FecRecoveryBuffer) : Prop where
  room : b.seenCurrent.card + n ≤ MAX_SEEN_PER_GENERATION
  bounded : TrackingBounded (tracking b)
  lasting : b.payloadTtl ≤ b.seenGeneration
  sorted : Sorted b.payloadOrder b.payloads
  past : ∀ s v, b.payloads.lookup s = some v → v.1 ≤ now
  remembered : ∀ s v, b.payloads.lookup s = some v →
    s ∈ b.seenCurrent ∨ s ∈ b.seenPrevious ∧ v.1 ≤ b.seenRotatedAt

variable {n k : Nat}

theorem Kept.mono (h : Kept n now b) (hk : k ≤ n) (hle : now ≤ t) : Kept k t b :=
  ⟨(Nat.add_le_add_left hk _).trans h.room, h.bounded, h.lasting, h.sorted,
    fun s v hv => (h.past s v hv).trans hle, h.remembered⟩

theorem Kept.seen (h : Kept n now b) (hs : s ∈ b.payloads) : Seen b s := by
  obtain ⟨v, hv⟩ := exists_lookup hs
  exact (h.remembered s v hv).imp id And.left

/-- The order after a new plaintext, or after another one for the newest number. -/
theorem Kept.sorted_insert (h : Kept n now b) (hle : now ≤ t)
    (hseq : seq ∉ b.payloads ∨ b.payloadOrder.getLast? = some seq) (plaintext : Bytes) :
    Sorted (if seq ∈ b.payloads then b.payloadOrder else b.payloadOrder ++ [seq])
      (b.payloads.insert seq (t, plaintext)) := by
  have hfront : ∃ front, (if seq ∈ b.payloads then b.payloadOrder else b.payloadOrder ++ [seq]) =
      front ++ [seq] ∧ List.Sublist front b.payloadOrder := by
    split
    case isTrue hmem =>
      obtain ⟨front, hfront⟩ :=
        List.getLast?_eq_some_iff.mp (hseq.resolve_left (not_not.mpr hmem))
      exact ⟨front, hfront, hfront ▸ List.sublist_append_left ..⟩
    case isFalse => exact ⟨_, rfl, List.Sublist.refl _⟩
  have hnodup : (if seq ∈ b.payloads then b.payloadOrder else b.payloadOrder ++ [seq]).Nodup :=
    (h.bounded.retained.insert seq (t, plaintext)).nodup
  obtain ⟨front, horder, hsub⟩ := hfront
  rw [horder] at hnodup ⊢
  have hother : ∀ s ∈ front, (b.payloads.insert seq (t, plaintext)).lookup s =
      b.payloads.lookup s := by
    refine fun s hs => AList.lookup_insert_ne ?_
    rintro rfl
    exact (List.nodup_append.mp hnodup).2.2 s hs s (List.mem_singleton_self s) rfl
  refine List.pairwise_append.mpr ⟨?_, List.pairwise_singleton .., ?_⟩
  · refine (h.sorted.sublist hsub).imp_of_mem fun {s s'} hs hs' hle v v' hv hv' => ?_
    rw [hother s hs] at hv
    rw [hother s' hs'] at hv'
    exact hle v v' hv hv'
  · intro s hs s' hs' v v' hv hv'
    rw [hother s hs] at hv
    rw [List.mem_singleton.mp hs', AList.lookup_insert] at hv'
    cases hv'
    exact (h.past s v hv).trans hle

/-! ## A mark with its plaintext -/

theorem mem_accept (hs : s ∈ (b.accept t t' seq plaintext).payloads) :
    s = seq ∨ s ∈ b.payloads := by
  obtain ⟨v, hv⟩ := exists_lookup hs
  refine (lookup_accept hv).imp And.left fun hold => ?_
  exact mem_of_lookup hold

/-- Where there is room, a new number is of the current generation. -/
theorem kept_accept (h : Kept (n + 1) now b) (hmark : now ≤ t) (hstore : t ≤ t')
    (hseq : seq ∉ b.payloads ∨ b.payloadOrder.getLast? = some seq) (plaintext : Bytes) :
    Kept n t' (b.accept t t' seq plaintext) ∧
      (b.accept t t' seq plaintext).payloadOrder.getLast? = some seq := by
  have hsorted := h.sorted_insert (hmark.trans hstore) hseq plaintext
  have hbounded := h.bounded.accept t t' seq plaintext
  have hlast : (if seq ∈ b.payloads then b.payloadOrder else b.payloadOrder ++ [seq]).getLast? =
      some seq := by
    split
    case isTrue hmem => exact hseq.resolve_left (not_not.mpr hmem)
    case isFalse => exact List.getLast?_concat
  have hpast : ∀ s v, (b.accept t t' seq plaintext).payloads.lookup s = some v → v.1 ≤ t' := by
    intro s v hv
    rcases lookup_accept hv with ⟨-, rfl⟩ | hv
    · exact le_refl t'
    · exact (h.past s v hv).trans (hmark.trans hstore)
  have hroom : (insert seq b.seenCurrent).card + n ≤ MAX_SEEN_PER_GENERATION := by
    have hcard := Finset.card_insert_le seq b.seenCurrent
    have hbefore := h.room
    omega
  unfold accept insertPayload at hbounded hpast ⊢
  rw [show b.markSeen t seq = _ from if_neg (Nat.not_lt.mpr (Nat.le_of_add_right_le hroom))]
    at hbounded hpast ⊢
  refine ⟨⟨hroom, hbounded, h.lasting, hsorted.drop (evictOver_suffix ..) (evictOver_shrinks _ _ _),
    hpast, fun s v hv => ?_⟩, (evictOver_getLast? (by decide) ..).trans hlast⟩
  rcases lookup_insertPayload hv with ⟨rfl, -⟩ | hold
  · exact .inl (Finset.mem_insert_self ..)
  · exact (h.remembered s v hold).imp_left Finset.mem_insert_of_mem

/-! ## The calls -/

/-- The part of the buffer that parked groups do not touch. -/
def bare (b : FecRecoveryBuffer) : FecRecoveryBuffer :=
  { b with parked := ∅, parkedBySeq := ∅, lateRecoveries := [], givenUp := 0 }

theorem Kept.of_bare (h : Kept n now b) (heq : bare b' = bare b) : Kept n now b' := by
  obtain ⟨hroom, hb, hl, hs, hp, hr⟩ : Kept n now (bare b) := ⟨h.1, h.2, h.3, h.4, h.5, h.6⟩
  rw [← heq] at hroom hb hl hs hp hr
  exact ⟨hroom, hb, hl, hs, hp, hr⟩

theorem bare_unpark (b : FecRecoveryBuffer) (key : UInt64) : bare (b.unpark key).1 = bare b := by
  unfold unpark
  cases b.parked.lookup key <;> rfl

theorem bare_park (b : FecRecoveryBuffer) (now : Instant) (tie : Nat) (key : UInt64)
    (shares : ShareSet) (missing : List UInt64) :
    bare (b.park now tie key shares missing) = bare b := by
  rw [park_eq]
  rcases makeRoom_cases b tie with h | ⟨oldest, h⟩
  · rw [h]
    rfl
  · rw [h]
    exact bare_unpark b oldest

theorem bare_dropAll (b : FecRecoveryBuffer) (keys : List UInt64) :
    bare (dropAll b keys) = bare b := by
  induction keys generalizing b with
  | nil => rfl
  | cons key keys ih => exact (ih _).trans (bare_unpark b key)

theorem lookup_none (s : UInt64) (v : Instant × Bytes) : (∅ : Payloads).lookup s ≠ some v :=
  fun hv => by cases (AList.lookup_empty s).symm.trans hv

/-- A note keeps everything or, on a restart, nothing. -/
theorem kept_noteSeq (h : Kept 3 now b) (seq : UInt64) : Kept 3 now (b.noteSeq seq) := by
  have hbounded := h.bounded.noteSeq seq
  obtain ⟨hroom, hb, hl, hs, hp, hr⟩ := h
  unfold noteSeq at hbounded ⊢
  split
  case isTrue hnew =>
    rw [if_pos hnew] at hbounded
    exact ⟨hroom, hbounded, hl, hs, hp, hr⟩
  case isFalse hnew =>
    rw [if_neg hnew] at hbounded
    split
    case isTrue hreset =>
      rw [if_pos hreset] at hbounded
      have hempty : 0 + 3 ≤ MAX_SEEN_PER_GENERATION := by decide
      exact ⟨hempty, hbounded, hl, .nil, fun s v hv => absurd hv (lookup_none s v),
        fun s v hv => absurd hv (lookup_none s v)⟩
    case isFalse => exact ⟨hroom, hb, hl, hs, hp, hr⟩

/-- One evaluation records at most two frames, neither of which is retained. -/
theorem kept_deliverAll {env : CallEnv} {frames : List Member} (h : Kept 2 now b)
    (hlen : frames.length ≤ 2) (hmissing : ∀ m ∈ frames, m.1 ∉ b.payloads)
    (hclock : [now, env.clock 0, env.clock 1, env.clock 2, env.clock 3].IsChain (· ≤ ·)) :
    Kept 0 (env.clock 3) (deliverAll env 0 b frames) := by
  simp only [List.isChain_cons_cons, List.isChain_singleton, and_true] at hclock
  obtain ⟨h0, h1, h2, h3⟩ := hclock
  match frames with
  | [] => exact h.mono (Nat.zero_le 2) (h0.trans (h1.trans (h2.trans h3)))
  | (s, data) :: frames =>
    have habsent := hmissing _ (List.mem_cons_self ..)
    obtain ⟨hkept, hlast⟩ := kept_accept h h0 h1 (.inl habsent) data
    match frames with
    | [] => exact hkept.mono (Nat.zero_le 1) (h2.trans h3)
    | [(s', data')] =>
      refine (kept_accept hkept h2 h3 ?_ data').1
      by_cases heq : s' = s
      · exact .inr (heq ▸ hlast)
      · exact .inl fun hmem => hmissing (s', data') (by simp) ((mem_accept hmem).resolve_left heq)

theorem not_mem_of_missing (h : b.memberState s = .Missing) : s ∉ b.payloads := by
  intro hmem
  rw [memberState, if_pos hmem] at h
  cases h

theorem kept_recheck {env : CallEnv} (h : Kept 2 now b)
    (hclock : [now, env.clock 0, env.clock 1, env.clock 2, env.clock 3].IsChain (· ≤ ·))
    (seq : UInt64) : Kept 0 (env.clock 3) (b.recheckParkedFor env seq) := by
  have hlater : Kept 0 (env.clock 3) b := by
    simp only [List.isChain_cons_cons] at hclock
    refine h.mono (Nat.zero_le 2) ?_
    exact hclock.1.trans (hclock.2.1.trans (hclock.2.2.1.trans hclock.2.2.2.1))
  cases hkey : b.parkedBySeq.lookup seq with
  | none =>
    rw [recheckParkedFor_none hkey]
    exact hlater
  | some key =>
    have hbare : bare (released b seq key) = bare b := bare_unpark _ key
    cases hg : b.parked.lookup key with
    | none =>
      rw [recheckParkedFor_absent hkey hg]
      exact hlater.of_bare rfl
    | some g =>
      rw [recheckParkedFor_eq hkey hg]
      cases hanswer : (released b seq key).reconstruct g.shares with
      | Recovered frames =>
        obtain ⟨-, -, -, hlen⟩ := recovered_positions hanswer
        have hdelivered := kept_deliverAll (h.of_bare hbare) hlen
          (fun m hm => not_mem_of_missing (recovered_named hanswer m hm).2) hclock
        exact hdelivered.of_bare rfl
      | AlreadyComplete => exact hlater.of_bare hbare
      | Unrecoverable => exact hlater.of_bare hbare
      | NeedMore missing => exact (hlater.of_bare hbare).of_bare (bare_park ..)

theorem kept_observeData {env : CallEnv} (h : Kept 3 now b)
    (hclock : (now :: reads (.observeData env seq plaintext)).IsChain (· ≤ ·)) :
    Kept 0 (env.clock 5) (b.observeData env seq plaintext).1 := by
  simp only [reads, List.isChain_cons_cons, List.isChain_singleton, and_true] at hclock
  obtain ⟨h0, h1, h2, h3, h4, h5⟩ := hclock
  have hnoted := kept_noteSeq h seq
  have hrest : env.clock 1 ≤ env.clock 5 := h2.trans (h3.trans (h4.trans h5))
  by_cases hseen : Seen (b.noteSeq seq) seq
  · rw [observeData_seen hseen]
    exact hnoted.mono (Nat.zero_le 3) (h0.trans (h1.trans hrest))
  · have hstored := (kept_accept hnoted h0 h1 (.inl fun hmem => hseen (hnoted.seen hmem))
      plaintext).1
    rw [observeData_fresh hseen]
    show Kept 0 _ (if _ then _ else _)
    split
    · exact hstored.mono (Nat.zero_le 2) hrest
    · show Kept 0 (CallEnv.clock { env with clock := fun i => env.clock (i + 2) } 3) _
      refine kept_recheck hstored ?_ seq
      simp only [List.isChain_cons_cons, List.isChain_singleton, and_true]
      exact ⟨h2, h3, h4, h5⟩

theorem kept_tryRecover {env : CallEnv} {kind : ParityKind} {parity : FecParityPayload}
    (h : Kept 3 now b) (hclock : (now :: reads (.tryRecover env kind parity)).IsChain (· ≤ ·)) :
    Kept 0 (env.clock 4) (b.tryRecover env kind parity).1 := by
  simp only [reads, List.isChain_cons_cons, List.isChain_singleton, and_true] at hclock
  obtain ⟨h0, h1, h2, h3, h4⟩ := hclock
  have hlater : now ≤ env.clock 4 := h0.trans (h1.trans (h2.trans (h3.trans h4)))
  by_cases hform : WellFormed parity
  · have htaken : Kept 3 now (taken b parity) := (kept_noteSeq h _).of_bare (bare_unpark ..)
    have hnow := htaken.mono (Nat.zero_le 3) hlater
    rw [tryRecover_eq hform]
    cases hanswer : (taken b parity).reconstruct (merged b kind parity) with
    | Recovered frames =>
      obtain ⟨-, -, -, hlen⟩ := recovered_positions hanswer
      refine (kept_deliverAll (htaken.mono (by decide) h0) hlen
        (fun m hm => not_mem_of_missing (recovered_named hanswer m hm).2) ?_).mono le_rfl h4
      simp only [List.isChain_cons_cons, List.isChain_singleton, and_true]
      exact ⟨le_refl _, h1, h2, h3⟩
    | AlreadyComplete => exact hnow
    | Unrecoverable => exact hnow
    | NeedMore missing => exact hnow.of_bare (bare_park ..)
  · rw [tryRecover_malformed hform]
    exact h.mono (Nat.zero_le 3) hlater

/-- When a rotation is due, what is left of the previous generation has expired. -/
theorem kept_tick (h : Kept 0 now b) (hle : now ≤ t) : Kept 0 t (b.tick t).1 := by
  obtain ⟨hsorted, hfresh⟩ := expirePayloads_sorted b.payloadTtl t h.sorted h.bounded.retained
  obtain ⟨hretained, hlen⟩ := expirePayloads_retained b.payloadTtl t h.bounded.retained
  have hshrinks := expirePayloads_shrinks b.payloadTtl t b.payloadOrder b.payloads
  have hpast : ∀ s v, (expire b t).payloads.lookup s = some v → v.1 ≤ t :=
    fun s v hv => (h.past s v (hshrinks s v hv)).trans hle
  have hexpire : Kept 0 t (expire b t) :=
    ⟨h.room, ⟨hretained, hlen.trans h.bounded.payloadOrder, h.bounded.seenCurrent,
      h.bounded.seenPrevious⟩, h.lasting, hsorted, hpast,
      fun s v hv => h.remembered s v (hshrinks s v hv)⟩
  have hbare := bare_dropAll (expire b t) (expiredKeys b t)
  rw [tick_eq]
  generalize dropAll (expire b t) (expiredKeys b t) = d at hbare ⊢
  have hrotated : d.seenRotatedAt = b.seenRotatedAt :=
    (congrArg FecRecoveryBuffer.seenRotatedAt hbare :)
  have hlasts : d.seenGeneration = b.seenGeneration :=
    (congrArg FecRecoveryBuffer.seenGeneration hbare :)
  split
  case isTrue hdue =>
    rw [hrotated, hlasts] at hdue
    have hrotate : Kept 0 t ((expire b t).rotateSeen t) := by
      refine ⟨Nat.zero_le _, hexpire.bounded.rotateSeen t, h.lasting, hsorted, hpast,
        fun s v hv => .inr ?_⟩
      refine ⟨(hexpire.remembered s v hv).resolve_right fun hold => ?_, hpast s v hv⟩
      have hlong := h.lasting.trans (hdue.trans (Nat.sub_le_sub_left hold.2 t))
      exact absurd (hfresh s v hv) (Nat.not_lt.mpr hlong)
    exact hrotate.of_bare (congrArg (·.rotateSeen t) hbare)
  case isFalse => exact hexpire.of_bare hbare

/-! ## Runs -/

/-- A call marks at most three numbers, and the current generation has room for them. -/
abbrev Roomy (_ : List (Call × Reply)) (b : FecRecoveryBuffer) (_ : Call) : Prop :=
  b.seenCurrent.card + 3 ≤ MAX_SEEN_PER_GENERATION

theorem kept_step {c : Call} {log : List (Call × Reply)} (h : Kept 0 now b)
    (hclock : (now :: reads c).IsChain (· ≤ ·)) (hroom : Roomy log b c) :
    Kept 0 ((reads c).getLast?.getD now) (step b c).1 := by
  have hroomy : Kept 3 now b := ⟨hroom, h.2, h.3, h.4, h.5, h.6⟩
  cases c with
  | observeData env seq plaintext => exact kept_observeData hroomy hclock
  | tryRecover env kind parity => exact kept_tryRecover hroomy hclock
  | takeLateRecoveries => exact h.of_bare rfl
  | tick t => exact kept_tick h (List.isChain_pair.mp hclock)

theorem kept_run {calls : List Call} {log : List (Call × Reply)} (h : Kept 0 now b)
    (hclock : InOrder now calls) (hroom : Mealy.Along step Roomy log b calls) :
    ∃ t, Kept 0 t (Mealy.run step b calls) := by
  induction calls generalizing b now log with
  | nil => exact ⟨now, h⟩
  | cons c calls ih =>
    unfold InOrder at hclock
    rw [List.flatMap_cons, ← List.cons_append, List.isChain_append] at hclock
    obtain ⟨hfirst, hrest, hbetween⟩ := hclock
    refine ih (kept_step h hfirst hroom.1) ?_ hroom.2
    refine List.isChain_cons.mpr ⟨hbetween _ ?_, hrest⟩
    rw [List.getLast?_cons]
    rfl

theorem kept_new (parityCount : UInt8) (now : Instant) :
    Kept 0 now (FecRecoveryBuffer.new parityCount now) :=
  ⟨Nat.zero_le _, (bounded_withParams ..).tracking, le_rfl, .nil,
    fun s v hv => absurd hv (lookup_none s v), fun s v hv => absurd hv (lookup_none s v)⟩

/-- After every run in which every call finds room in the current generation, every retained
number is in one of the two generations. -/
theorem retained_remembered (parityCount : UInt8) (now : Instant) (calls : List Call)
    (hclock : InOrder now calls)
    (hroom : Mealy.Along step Roomy [] (FecRecoveryBuffer.new parityCount now) calls) :
    ∀ s ∈ (Mealy.run step (FecRecoveryBuffer.new parityCount now) calls).payloads,
      Seen (Mealy.run step (FecRecoveryBuffer.new parityCount now) calls) s := by
  obtain ⟨t, hkept⟩ := kept_run (kept_new parityCount now) hclock hroom
  exact fun s hs => hkept.seen hs

/-- A frame that arrived, and the first rotation after it. -/
def quietRun : List Call := [.observeData ⟨fun _ => 1, 0⟩ 7 [69], .tick 2000000000]

theorem retained_remembered_through_tick :
    Seen (Mealy.run step (FecRecoveryBuffer.new 1 0) quietRun) 7 :=
  retained_remembered 1 0 quietRun (by simp [InOrder, quietRun, reads])
    ⟨by decide, by decide +kernel, trivial⟩ 7 (by decide +kernel)

/-! ## The mark that fills the generation -/

/-- The buffer after `n` frames with the numbers from one on, all at time zero. -/
structure Filled (n : Nat) (b : FecRecoveryBuffer) : Prop where
  kept : Kept 0 0 b
  parked : b.parked.entries = []
  rotated : b.seenRotatedAt = 0
  ttl : b.payloadTtl = PAYLOAD_TTL
  generation : b.seenGeneration = SEEN_GENERATION
  highest : b.highestSeq.toNat = n
  below : ∀ s ∈ b.seenCurrent, s.toNat ≤ n
  previous : b.seenPrevious = ∅
  card : b.seenCurrent.card = n

/-- The clock stands still. -/
def still : CallEnv := ⟨fun _ => 0, 0⟩

/-- The clock goes on between the mark and the plaintext. -/
def moving : CallEnv := ⟨fun i => if i = 0 then 0 else 1, 0⟩

/-- The number of the frame after `n` frames. -/
def number (n : Nat) : UInt64 := UInt64.ofNat (n + 1)

theorem toNat_number (hn : n ≤ MAX_SEEN_PER_GENERATION) : (number n).toNat = n + 1 := by
  refine UInt64.toNat_ofNat_of_lt' ((Nat.succ_le_succ hn).trans_lt ?_)
  decide

/-- The next frame is new, and no group is parked. -/
theorem Filled.observe (h : Filled n b) (hn : n ≤ MAX_SEEN_PER_GENERATION) (env : CallEnv) :
    (b.observeData env (number n) []).1 =
      { b with highestSeq := number n }.accept (env.clock 0) (env.clock 1) (number n) [] ∧
    (insert (number n) b.seenCurrent).card = n + 1 ∧ number n ∉ b.payloads := by
  have hnat := toNat_number hn
  have hnew : number n ∉ b.seenCurrent := by
    intro hmem
    have hle := h.below _ hmem
    omega
  have hunseen : ¬Seen b (number n) := by
    rintro (hmem | hmem)
    · exact hnew hmem
    · rw [h.previous] at hmem
      exact absurd hmem (Finset.notMem_empty _)
  have hnote : b.noteSeq (number n) = { b with highestSeq := number n } := by
    refine if_pos ?_
    rw [gt_iff_lt, UInt64.lt_iff_toNat_lt, hnat, h.highest]
    exact Nat.lt_succ_self n
  have hseen : ¬Seen (b.noteSeq (number n)) (number n) := by
    rw [hnote]
    exact hunseen
  refine ⟨?_, by rw [Finset.card_insert_of_notMem hnew, h.card],
    fun hmem => hunseen (h.kept.seen hmem)⟩
  rw [observeData_fresh hseen, stored, hnote]
  have hparked := congrArg Parking.parked (accept_parking { b with highestSeq := number n }
    (env.clock 0) (env.clock 1) (number n) [])
  exact if_pos ((congrArg AList.entries hparked).trans h.parked)

theorem Filled.next (h : Filled n b) (hn : n < MAX_SEEN_PER_GENERATION) :
    Filled (n + 1) (b.observeData still (number n) []).1 := by
  obtain ⟨hobserve, hcard, habsent⟩ := h.observe hn.le still
  have hnoted : Kept 1 0 { b with highestSeq := number n } :=
    ⟨h.card.symm ▸ hn, ⟨h.kept.bounded.retained, h.kept.bounded.payloadOrder,
      h.kept.bounded.seenCurrent, h.kept.bounded.seenPrevious⟩, h.kept.lasting, h.kept.sorted,
      h.kept.past, h.kept.remembered⟩
  have hkept := (kept_accept hnoted (le_refl 0) (le_refl 0) (.inl habsent) []).1
  have hmark : { b with highestSeq := number n }.markSeen 0 (number n) =
      _ := if_neg (Nat.not_lt.mpr (hcard.trans_le hn))
  rw [hobserve]
  show Filled (n + 1) (accept _ 0 0 _ [])
  unfold accept insertPayload at hkept ⊢
  rw [hmark] at hkept ⊢
  refine ⟨hkept, h.parked, h.rotated, h.ttl, h.generation, toNat_number hn.le, fun s hs => ?_,
    h.previous, hcard⟩
  rcases Finset.mem_insert.mp hs with rfl | hs
  · exact (toNat_number hn.le).le
  · exact (h.below s hs).trans (Nat.le_succ n)

/-- The first `n` frames. -/
def fill (n : Nat) : List Call :=
  (List.range n).map fun i => .observeData still (number i) []

theorem filled (hn : n ≤ MAX_SEEN_PER_GENERATION) :
    Filled n (Mealy.run step (FecRecoveryBuffer.new 1 0) (fill n)) := by
  induction n with
  | zero =>
    exact ⟨kept_new 1 0, rfl, rfl, rfl, rfl, rfl, fun s hs => absurd hs (Finset.notMem_empty s),
      rfl, rfl⟩
  | succ n ih =>
    rw [fill, List.range_succ, List.map_append, Mealy.run_append]
    exact (ih (Nat.le_of_succ_le hn)).next hn

/-- A plaintext that has not expired is not dropped. -/
theorem expirePayloads_keeps (ttl now : Nat) (order : List UInt64) (m : Payloads)
    {v : Instant × Bytes} (hv : m.lookup s = some v) (hfresh : now - v.1 < ttl) :
    s ∈ (expirePayloads ttl now order m).2 := by
  induction order generalizing m with
  | nil => exact mem_of_lookup hv
  | cons seq order ih =>
    have hother : s ≠ seq → (m.erase seq).lookup s = some v :=
      fun hne => (AList.lookup_erase_ne hne).trans hv
    rw [expirePayloads]
    cases hlook : m.lookup seq with
    | none =>
      refine ih _ (hother ?_)
      rintro rfl
      cases hlook.symm.trans hv
    | some w =>
      dsimp only
      split
      case isTrue hexpired =>
        refine ih _ (hother ?_)
        rintro rfl
        cases hlook.symm.trans hv
        exact absurd (of_decide_eq_true hexpired) (Nat.not_le.mpr hfresh)
      case isFalse => exact mem_of_lookup hv

/-- The rotation that forgets a number is due when its plaintext has not expired. -/
theorem tick_forgets (hstored : b.payloads.lookup seq = some (1, [])) (hcurrent : b.seenCurrent = ∅)
    (hrotated : b.seenRotatedAt = 0) (httl : b.payloadTtl = PAYLOAD_TTL)
    (hgen : b.seenGeneration = SEEN_GENERATION) :
    seq ∈ (b.tick 2000000000).1.payloads ∧ ¬Seen (b.tick 2000000000).1 seq := by
  have hfresh : 2000000000 - (1 : Nat) < b.payloadTtl := httl ▸ (by decide)
  have hkeeps := expirePayloads_keeps b.payloadTtl 2000000000 b.payloadOrder _ hstored hfresh
  have hbare := bare_dropAll (expire b 2000000000) (expiredKeys b 2000000000)
  rw [tick_eq]
  generalize dropAll (expire b 2000000000) (expiredKeys b 2000000000) = d at hbare ⊢
  simp only [bare, mk.injEq, expire, and_true] at hbare
  obtain ⟨-, hlasts, hpayloads, -, hnone, -, hsince, -⟩ := hbare
  rw [if_pos (by rw [hsince, hrotated, hlasts, hgen]; decide)]
  constructor
  · show seq ∈ d.payloads
    rw [hpayloads]
    exact hkeeps
  · show ¬(seq ∈ (∅ : Finset UInt64) ∨ seq ∈ d.seenCurrent)
    rw [hnone, hcurrent]
    simp

/-- One frame more while the clock goes on, and the next rotation. -/
def lastCalls : List Call :=
  [.observeData moving (number MAX_SEEN_PER_GENERATION) [], .tick 2000000000]

/-- The frame that fills the generation is of the previous one at once, and its plaintext is newer
than the rotation. -/
theorem Filled.forgets (h : Filled MAX_SEEN_PER_GENERATION b) :
    number MAX_SEEN_PER_GENERATION ∈ (Mealy.run step b lastCalls).payloads ∧
      ¬Seen (Mealy.run step b lastCalls) (number MAX_SEEN_PER_GENERATION) := by
  obtain ⟨hobserve, hcard, habsent⟩ := h.observe le_rfl moving
  unfold lastCalls
  generalize number MAX_SEEN_PER_GENERATION = seq at *
  have hnoted : TrackingBounded (tracking { b with highestSeq := seq }) :=
    ⟨h.kept.bounded.retained, h.kept.bounded.payloadOrder, h.kept.bounded.seenCurrent,
      h.kept.bounded.seenPrevious⟩
  have hretained := (hnoted.accept 0 1 seq []).retained
  have hmark : { b with highestSeq := seq }.markSeen 0 seq = _ :=
    if_pos (Nat.lt_of_succ_le hcard.ge)
  have hstored : ({ b with highestSeq := seq }.accept 0 1 seq []).payloads.lookup seq =
      some (1, []) := by
    have hlast : ({ b with highestSeq := seq }.accept 0 1 seq []).payloadOrder.getLast? =
        some seq := by
      refine (evictOver_getLast? (by decide) ..).trans ?_
      rw [markSeen_payloads]
      exact (congrArg List.getLast? (if_neg habsent)).trans List.getLast?_concat
    have hmem := (hretained.mem_iff seq).mp (List.mem_of_getLast? hlast)
    obtain ⟨v, hv⟩ := exists_lookup hmem
    have hnew := (lookup_accept hv).resolve_right fun hold =>
      habsent (mem_of_lookup hold)
    exact hv.trans (congrArg some hnew.2)
  show seq ∈ ((b.observeData moving seq []).1.tick 2000000000).1.payloads ∧
    ¬Seen ((b.observeData moving seq []).1.tick 2000000000).1 seq
  rw [hobserve]
  refine tick_forgets hstored ?_ ?_ ?_ ?_
  · exact congrArg FecRecoveryBuffer.seenCurrent hmark
  · exact congrArg FecRecoveryBuffer.seenRotatedAt hmark
  · exact (congrArg FecRecoveryBuffer.payloadTtl hmark).trans h.ttl
  · exact (congrArg FecRecoveryBuffer.seenGeneration hmark).trans h.generation

/-- A full generation, then the last two calls. -/
def forgettingRun : List Call := fill MAX_SEEN_PER_GENERATION ++ lastCalls

theorem inOrder_forgettingRun : InOrder 0 forgettingRun := by
  have hzero : ∀ t ∈ 0 :: (fill MAX_SEEN_PER_GENERATION).flatMap reads, t = 0 := by
    rintro t (_ | ⟨_, ht⟩)
    · rfl
    · obtain ⟨c, hc, ht⟩ := List.mem_flatMap.mp ht
      obtain ⟨i, -, rfl⟩ := List.mem_map.mp hc
      simpa [still, reads] using ht
  unfold InOrder forgettingRun
  rw [List.flatMap_append, ← List.cons_append, List.isChain_append]
  refine ⟨List.Pairwise.isChain (List.pairwise_of_forall_mem_list fun t ht t' _ => ?_),
    by simp [lastCalls, moving, reads], fun t ht t' _ => ?_⟩
  · exact (hzero t ht).trans_le (Nat.zero_le t')
  · exact (hzero t (List.mem_of_getLast? ht)).trans_le (Nat.zero_le t')

theorem retained_forgotten : InOrder 0 forgettingRun ∧
    ∃ s ∈ (Mealy.run step (FecRecoveryBuffer.new 1 0) forgettingRun).payloads,
      ¬Seen (Mealy.run step (FecRecoveryBuffer.new 1 0) forgettingRun) s := by
  have hforgets := (filled (n := MAX_SEEN_PER_GENERATION) le_rfl).forgets
  rw [← Mealy.run_append] at hforgets
  exact ⟨inOrder_forgettingRun, _, hforgets⟩

end Mlvpn.Ports.FecRetention
