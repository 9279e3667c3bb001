import Mlvpn.Ports.FecGfTraps
import Mlvpn.Ports.FecReconstruct
import Mlvpn.Ports.FecRecoveryBounds
import Mlvpn.Ports.ParityCodec

/-!
# The recovery buffer with its checks

`FecRecoveryBuffer` once more, with the checks the port in `FecRecovery` has no place for:
every index into a slice, every addition on a 64-bit word, and the assertions of the GF(256)
helpers.  A run that ends in `ok` has met no overflow, no index out of bounds and no failed
assertion.

One addition can overflow.  `member_state` adds the stale window to the number of a member it
does not know, and a parity frame may list a number within 65536 of the top of the range.  For
frames that list none of those the checked buffer computes what the port computes.  What
remains is arithmetic of the code itself: the positions of missing members are distinct and
below 255, so the weight the pair solver inverts is not zero, and the shares it strips are as
wide as what is stripped from them.

## Main results

* `reconstruct_eq`, `step_eq`: the checks of an evaluation, and of a call, pass.
* `run_no_fault`: so do those of a whole run.
-/

namespace Mlvpn.Ports.FecRecoveryTraps

open Protocol FecSend FecRecovery FecRecoveryBuffer FecRecoveryOps FecRecoveryBounds
open Verified AssocMap CheckedSlice Trap

/-! ## Evaluating a group -/

def memberState (b : FecRecoveryBuffer) (seq : UInt64) : Trapping MemberState :=
  if seq ∈ b.payloads then pure .Known
  else if seq ∈ b.seenCurrent ∨ seq ∈ b.seenPrevious then pure .Handled
  else if ∃ floor ∈ b.seenFloor, seq ≤ floor then pure .Handled
  else do
    let stale ← addU64 seq STALE_SEQ_WINDOW
    pure (if stale ≤ b.highestSeq then .Handled else .Missing)

/-- The first loop of `evaluate`: `missing_idx` and `handled_count`. -/
def classify (b : FecRecoveryBuffer) : List (UInt64 × Nat) → List Nat × Nat →
    Trapping (List Nat × Nat)
  | [], found => pure found
  | (seq, i) :: rest, (missing, handled) => do
      match ← memberState b seq with
      | .Known => classify b rest (missing, handled)
      | .Handled =>
          let handled ← succU64 handled
          classify b rest (missing, handled)
      | .Missing => classify b rest (missing ++ [i], handled)

/-- `missing_idx.iter().any(|&i| lens[i] as usize > width)`. -/
def anyTooLong (lens : List UInt16) (width : Nat) : List Nat → Trapping Bool
  | [] => pure false
  | i :: rest => do
      let len ← access (index lens i)
      if len.toNat > width then pure true else anyTooLong lens width rest

/-- `for (j, &b) in bytes.iter().enumerate() { pp[j] ^= b }`. -/
def xorInto : Bytes → Bytes → Trapping Bytes
  | dst, [] => pure dst
  | [], _ :: _ => .error (.slice .outOfBounds)
  | d :: ds, s :: ss => do
      let rest ← xorInto ds ss
      pure ((d ^^^ s) :: rest)

/-- `if let Some(share) = share.as_mut() { .. }`. -/
def onShare (f : Bytes → Trapping Bytes) : Option Bytes → Trapping (Option Bytes)
  | none => pure none
  | some share => do
      let share ← f share
      pure (some share)

def stripKnown (payloads : Payloads) (width : Nat) (missing : List Nat) :
    List (UInt64 × Nat) → Option Bytes × Option Bytes →
      Trapping (Option (Option Bytes × Option Bytes))
  | [], shares => pure (some shares)
  | (seq, i) :: rest, (pp, qp) =>
      if i ∈ missing then stripKnown payloads width missing rest (pp, qp)
      else
        match payloads.lookup seq with
        | none => pure none
        | some (_, bytes) =>
            if bytes.length > width then pure none
            else do
              let pp ← onShare (fun pp => xorInto pp bytes) pp
              let qp ← onShare (fun qp => do
                let g ← FecGfTraps.pow2 i
                FecGfTraps.mulAcc qp bytes g) qp
              stripKnown payloads width missing rest (pp, qp)

/-- The solver; the `zip` loop of the pair never leaves either slice. -/
def solve (missing : List Nat) (stripped : Option Bytes × Option Bytes) :
    Trapping (Option (List (Nat × Bytes))) :=
  match missing with
  | [a] =>
      match stripped with
      | (some pp, _) => pure (some [(a, pp)])
      | (none, some qp) => do
          let g ← FecGfTraps.pow2 a
          let coef ← FecGfTraps.inv g
          let data ← FecGfTraps.scale qp coef
          pure (some [(a, data)])
      | (none, none) => pure none
  | [a, b] =>
      match stripped with
      | (some pp, some qp) => do
          let ga ← FecGfTraps.pow2 a
          let gb ← FecGfTraps.pow2 b
          let qp ← FecGfTraps.mulAcc qp pp ga
          let coef ← FecGfTraps.inv (ga ^^^ gb)
          let db ← FecGfTraps.scale qp coef
          pure (some [(a, FecGf.xorInto pp db), (b, db)])
      | _ => pure none
  | _ => pure none

/-- The indices of the final loop, `lens[idx]` and `seqs[idx]`. -/
def deliverable (any : FecParityPayload) (solved : Nat × Bytes) : Trapping Member := do
  let len ← access (index any.memberLens solved.1)
  let seq ← access (index any.memberSeqs solved.1)
  pure (seq, solved.2.take len.toNat)

def reconstruct (b : FecRecoveryBuffer) (shares : ShareSet) : Trapping Eval :=
  match shares.p.or shares.q with
  | none => pure .Unrecoverable
  | some any => do
      let (missing, handled) ← classify b any.memberSeqs.zipIdx ([], 0)
      if missing = [] then pure .AlreadyComplete
      else if missing.length > b.maxErasures ∨ handled > 0 then pure .Unrecoverable
      else if missing.length = 2 ∧ ¬(shares.p.isSome ∧ shares.q.isSome) then
        let seqs ← missing.mapM fun i => access (index any.memberSeqs i)
        pure (.NeedMore seqs)
      else
        match shareWidth shares with
        | none => pure .Unrecoverable
        | some width =>
            let tooLong ← anyTooLong any.memberLens width missing
            if tooLong then pure .Unrecoverable
            else
              match ← stripKnown b.payloads width missing any.memberSeqs.zipIdx
                  (shares.p.map (·.parity), shares.q.map (·.parity)) with
              | none => pure .Unrecoverable
              | some stripped =>
                  match ← solve missing stripped with
                  | none => pure .Unrecoverable
                  | some out =>
                      let frames ← out.mapM (deliverable any)
                      pure (.Recovered frames)

def evaluate (b : FecRecoveryBuffer) (env : CallEnv) (shares : ShareSet) :
    Trapping (FecRecoveryBuffer × Eval) := do
  match ← reconstruct b shares with
  | .Recovered frames => pure (deliverAll env 0 b frames, .Recovered frames)
  | outcome => pure (b, outcome)

/-! ## The calls -/

/-- `self.given_up += 1`. -/
def giveUp (b : FecRecoveryBuffer) : Trapping FecRecoveryBuffer := do
  let givenUp ← succU64 b.givenUp
  pure { b with givenUp }

/-- The eviction at the start of `park`. -/
def makeRoom (b : FecRecoveryBuffer) (tie : Nat) : Trapping FecRecoveryBuffer :=
  if b.parked.entries.length ≥ MAX_PARKED_GROUPS then
    match b.oldestParked tie with
    | some oldest => giveUp (b.dropParked oldest)
    | none => pure b
  else pure b

def park (b : FecRecoveryBuffer) (now : Instant) (tie : Nat) (key : UInt64) (shares : ShareSet)
    (missing : List UInt64) : Trapping FecRecoveryBuffer := do
  let b ← makeRoom b tie
  pure { b with parkedBySeq := missing.foldl (fun m seq => m.insert seq key) b.parkedBySeq
                parked := b.parked.insert key { parkedAt := now, shares, missing } }

def recheckParkedFor (b : FecRecoveryBuffer) (env : CallEnv) (seq : UInt64) :
    Trapping FecRecoveryBuffer :=
  match b.parkedBySeq.lookup seq with
  | none => pure b
  | some key =>
      match { b with parkedBySeq := b.parkedBySeq.erase seq }.unpark key with
      | (b, none) => pure b
      | (b, some parked) => do
          match ← evaluate b env parked.shares with
          | (b, .Recovered frames) => pure { b with lateRecoveries := b.lateRecoveries ++ frames }
          | (b, .AlreadyComplete) => pure b
          | (b, .Unrecoverable) => giveUp b
          | (b, .NeedMore missing) => park b parked.parkedAt env.tie key parked.shares missing

def observeData (b : FecRecoveryBuffer) (env : CallEnv) (seq : UInt64) (plaintext : Bytes) :
    Trapping (FecRecoveryBuffer × Bool) :=
  let b := b.noteSeq seq
  if seq ∈ b.seenCurrent ∨ seq ∈ b.seenPrevious then pure (b, false)
  else
    let b := b.accept (env.clock 0) (env.clock 1) seq plaintext
    if b.parked.entries = [] then pure (b, true)
    else do
      let b ← recheckParkedFor b { env with clock := fun i => env.clock (i + 2) } seq
      pure (b, true)

def tryRecover (b : FecRecoveryBuffer) (env : CallEnv) (kind : ParityKind)
    (parity : FecParityPayload) : Trapping (FecRecoveryBuffer × RecoveryOutcome) :=
  if parity.memberSeqs.length ≠ parity.memberLens.length ∨ parity.memberSeqs = [] then
    pure (b, .Unrecoverable)
  else do
    let b := match parity.memberSeqs.max? with
      | some max => b.noteSeq max
      | none => b
    let key ← access (index parity.memberSeqs 0)
    let (b, parked) := b.unpark key
    let old := match parked with
      | some parked => parked.shares
      | none => { p := none, q := none }
    let shares := ShareSet.add old kind parity
    match ← evaluate b env shares with
    | (b, .Recovered frames) => pure (b, .Recovered frames)
    | (b, .AlreadyComplete) => pure (b, .AlreadyComplete)
    | (b, .Unrecoverable) => pure (b, .Unrecoverable)
    | (b, .NeedMore missing) =>
        let b ← park b (env.clock 4) env.tie key shares missing
        pure (b, .Pending)

def tick (b : FecRecoveryBuffer) (now : Instant) : Trapping (FecRecoveryBuffer × Nat) := do
  let kept := expirePayloads b.payloadTtl now b.payloadOrder b.payloads
  let b := { b with payloadOrder := kept.1, payloads := kept.2 }
  let expired := (b.parked.entries.filter fun g => now - g.2.parkedAt ≥ b.payloadTtl).map Sigma.fst
  let b ← expired.foldlM (fun b key => giveUp (b.dropParked key)) b
  let b := if now - b.seenRotatedAt ≥ b.seenGeneration then b.rotateSeen now else b
  pure ({ b with givenUp := 0 }, b.givenUp)

def step (b : FecRecoveryBuffer) : Call → Trapping (FecRecoveryBuffer × Reply)
  | .observeData env seq plaintext => do
      let (b, deliver) ← observeData b env seq plaintext
      pure (b, .observed deliver)
  | .tryRecover env kind parity => do
      let (b, outcome) ← tryRecover b env kind parity
      pure (b, .outcome outcome)
  | .takeLateRecoveries => pure (b.takeLateRecoveries.1, .late b.takeLateRecoveries.2)
  | .tick now => do
      let (b, n) ← tick b now
      pure (b, .gaveUp n)

/-- The buffer after a run, if no call of it traps. -/
def run (b : FecRecoveryBuffer) : List Call → Trapping FecRecoveryBuffer
  | [] => pure b
  | call :: calls => do
      let (b, _) ← step b call
      run b calls

/-! ## The checks of an evaluation -/

/-- A number the stale window can be added to. -/
def BelowTop (seq : UInt64) : Prop := seq.toNat + 65536 < 2 ^ 64

variable {missing : List Nat} {any : FecParityPayload} {b : FecRecoveryBuffer} {shares : ShareSet}
  {width : Nat}

theorem memberState_eq {seq : UInt64} (h : BelowTop seq) :
    memberState b seq = .ok (b.memberState seq) := by
  have hadd : addU64 seq STALE_SEQ_WINDOW = .ok (seq + STALE_SEQ_WINDOW) := addU64_of_lt h
  unfold memberState FecRecoveryBuffer.memberState
  rw [hadd, ok_bind]
  split
  · rfl
  · split
    · rfl
    · split <;> rfl

/-- The classification counts what the port filters. -/
theorem classify_eq {members : List (UInt64 × Nat)} (h : ∀ m ∈ members, BelowTop m.1)
    (missing : List Nat) {handled : Nat} (hcount : handled + members.length < 2 ^ 64) :
    classify b members (missing, handled) = .ok
      (missing ++ (members.filter fun m => b.memberState m.1 = .Missing).map Prod.snd,
       handled + ((members.filter fun m => b.memberState m.1 = .Handled).map Prod.snd).length) := by
  induction members generalizing missing handled with
  | nil =>
    rw [classify, List.filter_nil, List.filter_nil, List.map_nil, List.append_nil]
    rfl
  | cons m rest ih =>
    obtain ⟨seq, i⟩ := m
    have hrest : ∀ m ∈ rest, BelowTop m.1 := fun m hm => h m (List.mem_cons_of_mem _ hm)
    rw [List.length_cons] at hcount
    rw [classify, memberState_eq (h (seq, i) List.mem_cons_self), ok_bind]
    cases hst : b.memberState seq with
    | Known =>
      simp only
      rw [ih hrest missing (by omega)]
      simp [hst]
    | Handled =>
      simp only
      rw [succU64_of_lt (by omega), ok_bind, ih hrest missing (by omega)]
      simp [hst]
      omega
    | Missing =>
      simp only
      rw [ih hrest _ (by omega)]
      simp [hst]

theorem anyTooLong_eq {lens : List UInt16} (width : Nat) (h : ∀ i ∈ missing, i < lens.length) :
    anyTooLong lens width missing =
      .ok (decide (∃ i ∈ missing, (lens.getD i 0).toNat > width)) := by
  induction missing with
  | nil => rfl
  | cons i rest ih =>
    rw [anyTooLong, access_index_getD (h i List.mem_cons_self) 0, ok_bind]
    by_cases hlong : (lens.getD i 0).toNat > width
    · rw [if_pos hlong, decide_eq_true ⟨i, List.mem_cons_self, hlong⟩]
      rfl
    · rw [if_neg hlong, ih fun j hj => h j (List.mem_cons_of_mem i hj)]
      simp only [List.mem_cons, exists_eq_or_imp, hlong, false_or]

theorem xorInto_eq {dst src : Bytes} (h : src.length ≤ dst.length) :
    xorInto dst src = .ok (FecGf.xorInto dst src) := by
  induction dst generalizing src with
  | nil =>
    obtain rfl : src = [] := List.length_eq_zero_iff.mp (Nat.le_zero.mp h)
    rfl
  | cons d ds ih =>
    cases src with
    | nil => rfl
    | cons s ss =>
      rw [xorInto, ih (Nat.le_of_succ_le_succ h), ok_bind]
      rfl

/-- Both shares, where there is one, are `width` bytes. -/
def WideAs (width : Nat) (shares : Option Bytes × Option Bytes) : Prop :=
  (∀ pp ∈ shares.1, pp.length = width) ∧ ∀ qp ∈ shares.2, qp.length = width

theorem onShare_eq {f : Bytes → Trapping Bytes} {g : Bytes → Bytes} {share : Option Bytes}
    (h : ∀ s ∈ share, f s = .ok (g s)) : onShare f share = .ok (share.map g) := by
  cases share with
  | none => rfl
  | some s =>
    rw [onShare, h s rfl, ok_bind]
    rfl

/-- Stripping one member leaves the shares as wide as they were. -/
theorem WideAs.strip {pp qp : Option Bytes} (h : WideAs width (pp, qp)) (bytes : Bytes) (i : Nat) :
    WideAs width (pp.map (FecGf.xorInto · bytes),
      qp.map (FecGf.mulAcc · bytes (FecGf.pow2 i))) := by
  constructor
  · intro s hs
    obtain ⟨share, hshare, rfl⟩ := Option.mem_map.mp hs
    rw [FecGf.xorInto_length]
    exact h.1 share hshare
  · intro s hs
    obtain ⟨share, hshare, rfl⟩ := Option.mem_map.mp hs
    rw [FecGf.mulAcc_length]
    exact h.2 share hshare

/-- No member is stripped that is wider than the share, so no index leaves it. -/
theorem stripKnown_eq (payloads : Payloads) (missing : List Nat) (members : List (UInt64 × Nat))
    {shares : Option Bytes × Option Bytes} (h : WideAs width shares) :
    stripKnown payloads width missing members shares =
        .ok (FecRecoveryBuffer.stripKnown payloads width missing members shares) ∧
      ∀ stripped, FecRecoveryBuffer.stripKnown payloads width missing members shares =
        some stripped → WideAs width stripped := by
  induction members generalizing shares with
  | nil =>
    refine ⟨rfl, fun stripped hstripped => ?_⟩
    obtain rfl : shares = stripped := Option.some.inj hstripped
    exact h
  | cons m rest ih =>
    obtain ⟨seq, i⟩ := m
    obtain ⟨pp, qp⟩ := shares
    rw [stripKnown, FecRecoveryBuffer.stripKnown]
    split
    case isTrue => exact ih h
    case isFalse =>
      cases payloads.lookup seq with
      | none => exact ⟨rfl, fun stripped hstripped => by cases hstripped⟩
      | some entry =>
        obtain ⟨storedAt, bytes⟩ := entry
        simp only
        split
        case isTrue => exact ⟨rfl, fun stripped hstripped => by cases hstripped⟩
        case isFalse hle =>
          have hfits : ∀ share : Bytes, share.length = width →
              bytes.length ≤ share.length := fun share hshare => by omega
          rw [onShare_eq fun s hs => xorInto_eq (hfits s (h.1 s hs)), ok_bind,
            onShare_eq (g := fun qp => FecGf.mulAcc qp bytes (FecGf.pow2 i))
              fun s hs => by
                rw [FecGfTraps.pow2_eq, ok_bind]
                exact FecGfTraps.mulAcc_eq _ (hfits s (h.2 s hs)),
            ok_bind]
          exact ih (h.strip bytes i)

/-- The weights of two positions below 255 differ, so their sum has an inverse. -/
theorem weights_ne_zero {a c : Nat} (ha : a < 255) (hc : c < 255) (hne : a ≠ c) :
    FecGf.pow2 a ^^^ FecGf.pow2 c ≠ 0 := by
  intro hzero
  exact hne (FecGf.pow2_injOn ha hc (UInt8.xor_eq_zero_iff.mp hzero))

theorem solve_eq {stripped : Option Bytes × Option Bytes} (hlt : ∀ i ∈ missing, i < 255)
    (hpair : missing.Pairwise (· < ·)) (h : WideAs width stripped) :
    solve missing stripped = .ok (FecRecoveryBuffer.solve missing stripped) := by
  obtain ⟨pp, qp⟩ := stripped
  match missing, hlt, hpair with
  | [], _, _ => rfl
  | [a], _, _ =>
    cases pp with
    | some pp => rfl
    | none =>
      cases qp with
      | none => rfl
      | some qp =>
        simp only [solve, FecRecoveryBuffer.solve]
        rw [FecGfTraps.pow2_eq, ok_bind, FecGfTraps.inv_eq (FecGf.pow2_ne_zero a), ok_bind,
          FecGfTraps.scale_eq, ok_bind]
        rfl
  | [a, c], hlt, hpair =>
    cases pp with
    | none => rfl
    | some pp =>
      cases qp with
      | none => rfl
      | some qp =>
        have hwide : pp.length ≤ qp.length := by rw [h.1 pp rfl, h.2 qp rfl]
        have hne : a < c := List.rel_of_pairwise_cons hpair List.mem_cons_self
        have hinv := FecGfTraps.inv_eq
          (weights_ne_zero (hlt a (by simp)) (hlt c (by simp)) hne.ne)
        simp only [solve, FecRecoveryBuffer.solve]
        rw [FecGfTraps.pow2_eq, ok_bind, FecGfTraps.pow2_eq, ok_bind,
          FecGfTraps.mulAcc_eq _ hwide, ok_bind, hinv, ok_bind, FecGfTraps.scale_eq, ok_bind]
        rfl
  | _ :: _ :: _ :: _, _, _ => rfl

/-- A parity frame with as many lengths as members, at most 255 of them, none within the
stale window of the top. -/
structure Fine (p : FecParityPayload) : Prop where
  members : p.memberSeqs.length ≤ 255
  lens : p.memberLens.length = p.memberSeqs.length
  belowTop : ∀ seq ∈ p.memberSeqs, BelowTop seq

def FineShares (shares : ShareSet) : Prop :=
  ∀ p, shares.p = some p ∨ shares.q = some p → Fine p

/-- A width is reported for shares that have it. -/
theorem wideAs_shareWidth (h : shareWidth shares = some width) :
    WideAs width (shares.p.map (·.parity), shares.q.map (·.parity)) := by
  obtain ⟨p, q⟩ := shares
  cases p <;> cases q <;> simp only [shareWidth] at h
  case none.none => cases h
  case none.some q =>
    cases h
    exact ⟨fun pp hpp => (by cases hpp), fun qp hqp => by cases hqp; rfl⟩
  case some.none p =>
    cases h
    exact ⟨fun pp hpp => by cases hpp; rfl, fun qp hqp => (by cases hqp)⟩
  case some.some p q =>
    split at h
    · cases h
    · rename_i hsame
      cases h
      refine ⟨fun pp hpp => by cases hpp; rfl, fun qp hqp => ?_⟩
      cases hqp
      by_contra hne
      exact hsame (Or.inl fun heq => hne heq.symm)

theorem Fine.classify_eq (h : Fine any) (b : FecRecoveryBuffer) :
    classify b any.memberSeqs.zipIdx ([], 0) = .ok
      (b.positions .Missing any.memberSeqs, (b.positions .Handled any.memberSeqs).length) := by
  have hbelow : ∀ m ∈ any.memberSeqs.zipIdx, BelowTop m.1 := fun m hm =>
    h.belowTop m.1 (List.fst_mem_of_mem_zipIdx hm)
  have hcount : 0 + any.memberSeqs.zipIdx.length < 2 ^ 64 := by
    have hlen := h.members
    rw [List.length_zipIdx]
    omega
  rw [FecRecoveryTraps.classify_eq hbelow [] hcount, List.nil_append, Nat.zero_add]
  rfl

theorem Fine.deliverable_eq (h : Fine any) {solved : Nat × Bytes}
    (hlt : solved.1 < any.memberSeqs.length) :
    deliverable any solved = .ok (any.memberSeqs.getD solved.1 0,
      solved.2.take (any.memberLens.getD solved.1 0).toNat) := by
  have hltLens : solved.1 < any.memberLens.length := by rwa [h.lens]
  rw [deliverable, access_index_getD hltLens 0, ok_bind, access_index_getD hlt 0, ok_bind]
  rfl

theorem reconstruct_eq (h : FineShares shares) :
    reconstruct b shares = .ok (b.reconstruct shares) := by
  unfold reconstruct FecRecoveryBuffer.reconstruct
  cases hany : shares.p.or shares.q with
  | none => rfl
  | some any =>
    have hfine : Fine any := by
      rcases Option.or_eq_some_iff.mp hany with hp | ⟨-, hq⟩
      · exact h any (Or.inl hp)
      · exact h any (Or.inr hq)
    simp only
    rw [hfine.classify_eq b, ok_bind]
    simp only
    have hlt : ∀ i ∈ b.positions .Missing any.memberSeqs, i < any.memberSeqs.length := by
      intro i hi
      obtain ⟨seq, hseq, -⟩ := FecReconstruct.mem_positions.mp hi
      exact (List.getElem?_eq_some_iff.mp hseq).1
    have hpair := FecReconstruct.positions_pairwise b .Missing any.memberSeqs
    generalize b.positions .Missing any.memberSeqs = missing at hlt hpair
    have hltLens : ∀ i ∈ missing, i < any.memberLens.length := by
      rw [hfine.lens]
      exact hlt
    split
    · rfl
    split
    · rfl
    split
    · rw [mapM_eq_ok fun i hi => access_index_getD (hlt i hi) 0, ok_bind]
      rfl
    cases hwidth : shareWidth shares with
    | none => rfl
    | some width =>
      simp only
      rw [anyTooLong_eq width hltLens, ok_bind]
      simp only [decide_eq_true_eq]
      split
      · rfl
      obtain ⟨hstrip, hwide⟩ := stripKnown_eq b.payloads missing any.memberSeqs.zipIdx
        (wideAs_shareWidth hwidth)
      rw [hstrip, ok_bind]
      cases hs : FecRecoveryBuffer.stripKnown b.payloads width missing any.memberSeqs.zipIdx
          (shares.p.map (·.parity), shares.q.map (·.parity)) with
      | none => rfl
      | some stripped =>
        simp only
        rw [solve_eq (fun i hi => (hlt i hi).trans_le hfine.members) hpair (hwide _ hs),
          ok_bind]
        cases hsolve : FecRecoveryBuffer.solve missing stripped with
        | none => rfl
        | some out =>
          have hout : ∀ d ∈ out, d.1 ∈ missing := by
            intro d hd
            rw [← solve_fst hsolve]
            exact List.mem_map_of_mem hd
          simp only
          rw [mapM_eq_ok fun d hd => hfine.deliverable_eq (hlt _ (hout d hd)), ok_bind]
          rfl

/-! ## The checks of a call -/

variable {b : FecRecoveryBuffer}

variable (env : CallEnv) (seq key : UInt64) {b' : FecRecoveryBuffer}

theorem noteSeq_givenUp : (b.noteSeq seq).givenUp = b.givenUp := by
  unfold noteSeq
  split
  · rfl
  · split <;> rfl

theorem accept_givenUp (t t' : Instant) (seq : UInt64) (plaintext : Bytes) :
    (b.accept t t' seq plaintext).givenUp = b.givenUp := by
  show (b.markSeen t seq).givenUp = b.givenUp
  rcases markSeen_cases b t seq with h | h
  · rw [h]
  · rw [h]
    rfl

theorem deliverAll_givenUp (i : Nat) (frames : List Member) :
    (deliverAll env i b frames).givenUp = b.givenUp :=
  deliverAll_induction (P := fun b' => b'.givenUp = b.givenUp) env i rfl
    fun b' t t' m _ h => by rw [accept_givenUp, h]

theorem unpark_givenUp : (b.unpark key).1.givenUp = b.givenUp := by
  unfold unpark
  cases b.parked.lookup key <;> rfl

theorem giveUp_eq (h : b.givenUp + 1 < 2 ^ 64) :
    giveUp b = .ok { b with givenUp := b.givenUp + 1 } := by
  rw [giveUp, succU64_of_lt h, ok_bind]
  rfl

theorem giveUp_dropParked (h : b.givenUp + 1 < 2 ^ 64) (key : UInt64) :
    giveUp (b.dropParked key) = .ok { b.dropParked key with givenUp := b.givenUp + 1 } := by
  have hkeep : (b.dropParked key).givenUp = b.givenUp := unpark_givenUp key
  rw [giveUp_eq (by rwa [hkeep]), hkeep]

theorem makeRoom_eq (h : b.givenUp + 1 < 2 ^ 64) (tie : Nat) :
    makeRoom b tie = .ok (FecRecoveryOps.makeRoom b tie) := by
  unfold makeRoom FecRecoveryOps.makeRoom
  split
  · cases b.oldestParked tie with
    | none => rfl
    | some oldest => exact giveUp_dropParked h oldest
  · rfl

theorem park_eq (h : b.givenUp + 1 < 2 ^ 64) (now : Instant) (tie : Nat) (key : UInt64)
    (shares : ShareSet) (missing : List UInt64) :
    park b now tie key shares missing = .ok (b.park now tie key shares missing) := by
  rw [park, makeRoom_eq h, ok_bind]
  rfl

/-- The shares of every parked group pass the checks. -/
def Safe (b : FecRecoveryBuffer) : Prop :=
  ∀ key g, b.parked.lookup key = some g → FineShares g.shares

theorem Safe.of_shrinks (h : Safe b) (hsub : Shrinks b.parked b'.parked) : Safe b' :=
  fun key g hg => h key g (hsub key g hg)

theorem Safe.of_parking (h : Safe b) (heq : parking b' = parking b) : Safe b' := by
  have hparked : b'.parked = b.parked := congrArg Parking.parked heq
  intro key g hg
  rw [hparked] at hg
  exact h key g hg

theorem released_givenUp : (released b seq key).givenUp = b.givenUp :=
  unpark_givenUp (b := { b with parkedBySeq := b.parkedBySeq.erase seq }) key

theorem recheckParkedFor_checked (hsafe : Safe b) (hroom : b.givenUp + 1 < 2 ^ 64) (env : CallEnv)
    (seq : UInt64) : recheckParkedFor b env seq = .ok (b.recheckParkedFor env seq) := by
  unfold recheckParkedFor
  cases hkey : b.parkedBySeq.lookup seq with
  | none =>
    rw [recheckParkedFor_none hkey]
    rfl
  | some key =>
    cases hg : b.parked.lookup key with
    | none =>
      simp only [unpark, hg]
      rw [recheckParkedFor_absent hkey hg]
      rfl
    | some g =>
      have hunpark : { b with parkedBySeq := b.parkedBySeq.erase seq }.unpark key =
          (released b seq key, some g) := Prod.ext rfl ((unpark_snd _ key).trans hg)
      have hroom' : (released b seq key).givenUp + 1 < 2 ^ 64 := by rwa [released_givenUp]
      simp only [hunpark]
      rw [recheckParkedFor_eq hkey hg, evaluate, reconstruct_eq (hsafe key g hg), ok_bind]
      cases (released b seq key).reconstruct g.shares with
      | Recovered frames => rfl
      | AlreadyComplete => rfl
      | Unrecoverable => exact giveUp_eq hroom'
      | NeedMore missing => exact park_eq hroom' _ _ _ _ _

theorem stored_givenUp (plaintext : Bytes) : (stored b env seq plaintext).givenUp = b.givenUp := by
  rw [stored, accept_givenUp, noteSeq_givenUp]

theorem Safe.stored (h : Safe b) (env : CallEnv) (seq : UInt64) (plaintext : Bytes) :
    Safe (stored b env seq plaintext) :=
  h.of_parking (by rw [FecRecoveryOps.stored, accept_parking, noteSeq_parking])

theorem observeData_checked (hsafe : Safe b) (hroom : b.givenUp + 1 < 2 ^ 64) (env : CallEnv)
    (seq : UInt64) (plaintext : Bytes) :
    observeData b env seq plaintext = .ok (b.observeData env seq plaintext) := by
  have hrecheck := recheckParkedFor_checked (hsafe.stored env seq plaintext)
    (by rwa [stored_givenUp]) { env with clock := fun i => env.clock (i + 2) } seq
  unfold observeData FecRecoveryBuffer.observeData
  dsimp only
  split
  · rfl
  · split
    · rfl
    · show (recheckParkedFor (stored b env seq plaintext) _ seq >>= _) = _
      rw [hrecheck, ok_bind]
      rfl

variable {parity : FecParityPayload}

theorem FineShares.add {held : ShareSet} (h : FineShares held) (kind : ParityKind)
    (hfine : Fine parity) : FineShares (ShareSet.add held kind parity) := by
  intro p hp
  cases kind with
  | P =>
    rcases hp with hp | hq
    · obtain rfl : parity = p := Option.some.inj hp
      exact hfine
    · exact h p (Or.inr hq)
  | Q =>
    rcases hp with hp | hq
    · exact h p (Or.inl hp)
    · obtain rfl : parity = p := Option.some.inj hq
      exact hfine

theorem Safe.merged (h : Safe b) (kind : ParityKind)
    (hfine : Fine parity) : FineShares (merged b kind parity) := by
  refine FineShares.add ?_ kind hfine
  unfold heldShares
  cases hlookup : b.parked.lookup (parity.memberSeqs.headD 0) with
  | none => exact fun p hp => hp.elim (fun hp => by cases hp) fun hq => by cases hq
  | some g => exact h _ g hlookup

theorem taken_givenUp (parity : FecParityPayload) : (taken b parity).givenUp = b.givenUp := by
  rw [taken, unpark_givenUp, noteSeq_givenUp]

theorem tryRecover_checked (hsafe : Safe b) (hroom : b.givenUp + 1 < 2 ^ 64) (env : CallEnv)
    (kind : ParityKind) (hfine : Fine parity) :
    tryRecover b env kind parity = .ok (b.tryRecover env kind parity) := by
  unfold tryRecover
  split
  case isTrue hform =>
    have hmalformed : ¬WellFormed parity := fun h => hform.elim (· h.1) (h.2 ·)
    rw [tryRecover_malformed hmalformed]
    rfl
  case isFalse hform =>
    obtain ⟨hlen, hne⟩ := not_or.mp hform
    have hkey : access (index parity.memberSeqs 0) = .ok (parity.memberSeqs.headD 0) := by
      rw [access_index_getD (List.length_pos_iff.mpr hne) 0]
      cases parity.memberSeqs <;> rfl
    have hroom' : (taken b parity).givenUp + 1 < 2 ^ 64 := by rwa [taken_givenUp]
    rw [hkey, ok_bind, tryRecover_eq ⟨not_not.mp hlen, hne⟩]
    simp only [max?_eq_maxSeq hne, unpark_taken]
    show (evaluate (taken b parity) env (merged b kind parity) >>= _) = _
    rw [evaluate, reconstruct_eq (hsafe.merged kind hfine), ok_bind]
    cases (taken b parity).reconstruct (merged b kind parity) with
    | Recovered frames => rfl
    | AlreadyComplete => rfl
    | Unrecoverable => rfl
    | NeedMore missing =>
      show (park (taken b parity) _ _ _ (merged b kind parity) missing >>= _) = _
      rw [park_eq hroom', ok_bind]
      rfl

/-- The groups a tick drops are counted one by one. -/
theorem dropAll_checked (keys : List UInt64) (h : b.givenUp + keys.length < 2 ^ 64) :
    keys.foldlM (fun b key => giveUp (b.dropParked key)) b = .ok (dropAll b keys) := by
  induction keys generalizing b with
  | nil => rfl
  | cons key keys ih =>
    rw [List.length_cons] at h
    rw [List.foldlM_cons, giveUp_dropParked (by omega), ok_bind]
    exact ih (by show b.givenUp + 1 + keys.length < 2 ^ 64; omega)

theorem tick_checked (hbounded : Bounded b) (hroom : b.givenUp + MAX_PARKED_GROUPS < 2 ^ 64)
    (now : Instant) : tick b now = .ok (b.tick now) := by
  have hlen : (expiredKeys b now).length ≤ MAX_PARKED_GROUPS := by
    rw [expiredKeys, List.length_map]
    exact (List.length_filter_le _ _).trans hbounded.parking.parked
  have hdrop := dropAll_checked (b := expire b now) (expiredKeys b now)
    (Nat.lt_of_le_of_lt (Nat.add_le_add_left hlen _) hroom)
  show ((expiredKeys b now).foldlM (fun b key => giveUp (b.dropParked key)) (expire b now)
    >>= _) = _
  rw [hdrop, ok_bind]
  rfl

/-! ## Runs -/

/-- The parity frames of a call come from the wire. -/
def Received : Call → Prop
  | .tryRecover _ _ parity => ∃ buf, FecParityPayload.decode buf = .ok parity
  | _ => True

/-- A call names no member within the stale window of the top. -/
def StaysBelow : Call → Prop
  | .tryRecover _ _ parity => ∀ seq ∈ parity.memberSeqs, BelowTop seq
  | _ => True

theorem fine_of_received {env : CallEnv} {kind : ParityKind}
    (hreceived : Received (.tryRecover env kind parity))
    (hbelow : StaysBelow (.tryRecover env kind parity)) : Fine parity := by
  obtain ⟨buf, hbuf⟩ := hreceived
  obtain ⟨hfits, -⟩ := ParityCodec.encode_prefix_of_decode hbuf
  exact ⟨hfits.members, hfits.lens, hbelow⟩

theorem step_eq (hbounded : Bounded b) (hsafe : Safe b)
    (hroom : b.givenUp + MAX_PARKED_GROUPS < 2 ^ 64) {call : Call} (hreceived : Received call)
    (hbelow : StaysBelow call) : step b call = .ok (FecRecovery.step b call) := by
  have hone : b.givenUp + 1 < 2 ^ 64 :=
    Nat.lt_of_le_of_lt (Nat.add_le_add_left (by decide : 1 ≤ MAX_PARKED_GROUPS) _) hroom
  cases call with
  | observeData env seq plaintext =>
    rw [step, observeData_checked hsafe hone, ok_bind]
    rfl
  | tryRecover env kind parity =>
    rw [step, tryRecover_checked hsafe hone env kind (fine_of_received hreceived hbelow), ok_bind]
    rfl
  | takeLateRecoveries => rfl
  | tick now =>
    rw [step, tick_checked hbounded hroom, ok_bind]
    rfl

/-- What a call makes of a safe buffer: it stays safe, and at most one group is given up. -/
structure Charged (b b' : FecRecoveryBuffer) : Prop where
  safe : Safe b'
  givenUp : b'.givenUp ≤ b.givenUp + 1

theorem Charged.of_eq (hsafe : Safe b') (h : b'.givenUp = b.givenUp) : Charged b b' :=
  ⟨hsafe, by omega⟩

theorem charged_park (hsafe : Safe b) (now : Instant) (tie : Nat) (key : UInt64)
    (hfine : FineShares shares) (missing : List UInt64) :
    Charged b (b.park now tie key shares missing) := by
  constructor
  · intro k g hg
    rcases lookup_park hg with ⟨-, rfl⟩ | hold
    · exact hfine
    · exact hsafe k g hold
  · show (FecRecoveryOps.makeRoom b tie).givenUp ≤ b.givenUp + 1
    rcases makeRoom_cases b tie with heq | ⟨oldest, heq⟩
    · rw [heq]
      exact Nat.le_succ _
    · rw [heq]

theorem charged_deliverAll (hsafe : Safe b) (env : CallEnv) (frames : List Member) :
    Charged b (deliverAll env 0 b frames) :=
  .of_eq (hsafe.of_parking (deliverAll_parking env 0 b frames)) (deliverAll_givenUp env 0 frames)

theorem charged_recheck (hsafe : Safe b) (env : CallEnv) (seq : UInt64) :
    Charged b (b.recheckParkedFor env seq) := by
  cases hkey : b.parkedBySeq.lookup seq with
  | none =>
    rw [recheckParkedFor_none hkey]
    exact .of_eq hsafe rfl
  | some key =>
    cases hg : b.parked.lookup key with
    | none =>
      rw [recheckParkedFor_absent hkey hg]
      exact .of_eq hsafe rfl
    | some g =>
      have hreleased := hsafe.of_shrinks (released_parked_shrinks b seq key)
      have hsame := released_givenUp (b := b) seq key
      rw [recheckParkedFor_eq hkey hg]
      cases (released b seq key).reconstruct g.shares with
      | Recovered frames =>
        have h := charged_deliverAll hreleased env frames
        exact ⟨h.safe, hsame ▸ h.givenUp⟩
      | AlreadyComplete => exact .of_eq hreleased hsame
      | Unrecoverable => exact ⟨hreleased, by rw [← hsame]⟩
      | NeedMore missing =>
        have h := charged_park hreleased g.parkedAt env.tie key (hsafe key g hg) missing
        exact ⟨h.safe, hsame ▸ h.givenUp⟩

theorem charged_observeData (hsafe : Safe b) (env : CallEnv) (seq : UInt64) (plaintext : Bytes) :
    Charged b (b.observeData env seq plaintext).1 := by
  by_cases hseen : Seen (b.noteSeq seq) seq
  · rw [observeData_seen hseen]
    exact .of_eq (hsafe.of_parking (noteSeq_parking b seq)) (noteSeq_givenUp seq)
  · have hstored := hsafe.stored env seq plaintext
    have hsame := stored_givenUp (b := b) env seq plaintext
    rw [observeData_fresh hseen]
    show Charged b (if _ then _ else _)
    split
    · exact .of_eq hstored hsame
    · have h := charged_recheck hstored { env with clock := fun i => env.clock (i + 2) } seq
      exact ⟨h.safe, hsame ▸ h.givenUp⟩

theorem charged_tryRecover (hsafe : Safe b) (env : CallEnv) (kind : ParityKind)
    (hfine : Fine parity) : Charged b (b.tryRecover env kind parity).1 := by
  by_cases hform : WellFormed parity
  · have htaken : Safe (taken b parity) :=
      (hsafe.of_parking (noteSeq_parking b _)).of_shrinks (unpark_parked_shrinks _ _)
    have hsame := taken_givenUp (b := b) parity
    rw [tryRecover_eq hform]
    cases (taken b parity).reconstruct (merged b kind parity) with
    | Recovered frames =>
      have h := charged_deliverAll htaken env frames
      exact ⟨h.safe, hsame ▸ h.givenUp⟩
    | AlreadyComplete => exact .of_eq htaken hsame
    | Unrecoverable => exact .of_eq htaken hsame
    | NeedMore missing =>
      have h := charged_park htaken (env.clock 4) env.tie (parity.memberSeqs.headD 0)
        (hsafe.merged kind hfine) missing
      exact ⟨h.safe, hsame ▸ h.givenUp⟩
  · rw [tryRecover_malformed hform]
    exact .of_eq hsafe rfl

theorem charged_step (hsafe : Safe b) {call : Call} (hreceived : Received call)
    (hbelow : StaysBelow call) : Charged b (FecRecovery.step b call).1 := by
  cases call with
  | observeData env seq plaintext => exact charged_observeData hsafe env seq plaintext
  | tryRecover env kind parity =>
    exact charged_tryRecover hsafe env kind (fine_of_received hreceived hbelow)
  | takeLateRecoveries => exact .of_eq hsafe rfl
  | tick now => exact ⟨hsafe.of_shrinks (tick_parked_shrinks b now), Nat.zero_le _⟩

/-- A run from a safe buffer whose count leaves room for the calls to come. -/
theorem run_eq {calls : List Call} (hbounded : Bounded b) (hsafe : Safe b)
    (hroom : b.givenUp + calls.length + MAX_PARKED_GROUPS ≤ 2 ^ 64)
    (hreceived : ∀ call ∈ calls, Received call) (hbelow : ∀ call ∈ calls, StaysBelow call) :
    run b calls = .ok (Mealy.run FecRecovery.step b calls) := by
  induction calls generalizing b with
  | nil => rfl
  | cons call calls ih =>
    have hcall := hreceived call List.mem_cons_self
    have hstays := hbelow call List.mem_cons_self
    rw [List.length_cons] at hroom
    have hcharged := charged_step hsafe hcall hstays
    have hroom' : (FecRecovery.step b call).1.givenUp + calls.length + MAX_PARKED_GROUPS ≤
        2 ^ 64 := by
      have hgiven := hcharged.givenUp
      omega
    rw [run, step_eq hbounded hsafe (by omega) hcall hstays, ok_bind]
    exact ih (hbounded.step call) hcharged.safe hroom'
      (fun c hc => hreceived c (List.mem_cons_of_mem _ hc))
      fun c hc => hbelow c (List.mem_cons_of_mem _ hc)

theorem received_of_fits (kind : ParityKind) (h : Fits parity) :
    Received (.tryRecover env kind parity) :=
  ⟨parity.encode, by simpa using decode_encode_append h []⟩

/-- No call of a run faults if the parity frames it is given, which may be anything that
decodes, name no member within the stale window of the top of the sequence space.  The bound
on the number of calls is that of the 64-bit count of groups given up. -/
theorem run_no_fault (parityCount : UInt8) (payloadTtl seenGeneration : Nat) (now : Instant)
    (calls : List Call) (hreceived : ∀ call ∈ calls, Received call)
    (hbelow : ∀ call ∈ calls, StaysBelow call) (hlen : calls.length + 512 ≤ 2 ^ 64) :
    run (withParams parityCount payloadTtl seenGeneration now) calls =
      .ok (Mealy.run FecRecovery.step (withParams parityCount payloadTtl seenGeneration now)
        calls) := by
  have hsafe : Safe (withParams parityCount payloadTtl seenGeneration now) := by
    intro key g hg
    have hempty : (∅ : ParkedMap).lookup key = some g := hg
    rw [AList.lookup_empty] at hempty
    cases hempty
  refine run_eq (bounded_withParams parityCount payloadTtl seenGeneration now) hsafe ?_
    hreceived hbelow
  show 0 + calls.length + 512 ≤ 2 ^ 64
  rwa [Nat.zero_add]

/-- A frame with a repeated member, out of order, declared longer than its share. -/
def oddFrame : FecParityPayload where
  memberSeqs := [7, 3, 3]
  memberLens := [1, 0, 9]
  parity := [5]

/-- A run with such a frame, between two data frames. -/
def oddRun : List Call :=
  [.observeData ⟨fun _ => 0, 0⟩ 3 [1], .tryRecover ⟨fun _ => 0, 0⟩ .Q oddFrame,
    .observeData ⟨fun _ => 0, 0⟩ 7 []]

theorem run_no_fault_odd :
    run (withParams 2 1000 1000 0) oddRun =
      .ok (Mealy.run FecRecovery.step (withParams 2 1000 1000 0) oddRun) := by
  refine run_no_fault 2 1000 1000 0 oddRun ?_ ?_ (by decide)
  · intro call hcall
    simp only [oddRun, List.mem_cons, List.not_mem_nil, or_false] at hcall
    rcases hcall with rfl | rfl | rfl
    · trivial
    · exact received_of_fits _ _ ⟨by decide, rfl, by decide⟩
    · trivial
  · intro call hcall
    simp only [oddRun, List.mem_cons, List.not_mem_nil, or_false] at hcall
    rcases hcall with rfl | rfl | rfl
    · trivial
    · show ∀ seq ∈ oddFrame.memberSeqs, BelowTop seq
      simp [oddFrame, BelowTop]
    · trivial

/-- A frame that names the last number of the sequence space. -/
def topFrame : FecParityPayload where
  memberSeqs := [18446744073709551615]
  memberLens := [1]
  parity := [0]

/-- It decodes, and the addition of the stale window overflows. -/
theorem topFrame_overflow :
    Received (.tryRecover ⟨fun _ => 0, 0⟩ .P topFrame) ∧
    cause (run (new 1 0) [.tryRecover ⟨fun _ => 0, 0⟩ .P topFrame]) = some .overflow := by
  constructor
  · exact received_of_fits _ _ ⟨by decide, rfl, by decide⟩
  · decide +kernel

end Mlvpn.Ports.FecRecoveryTraps
