import Mlvpn.Ports.FecRecovery

/-!
# Reconstruction is exact

The algebra of one evaluation.  Given shares that cover a group and retained
plaintexts that are the members' own, `reconstruct` answers by the
classification of the members alone, and when it recovers, it returns precisely
the missing members, in group order, byte for byte.

The argument has three steps: `stripKnown` turns a share into the syndrome of
the missing members, `solve` inverts the one- or two-member syndrome through
the erasure-code library, and truncation to the declared length undoes the
padding.

## Main results

* `stripKnown_spec`, `solve_single`, `solve_pair` — one lemma per step.
* `reconstruct_eq`, `reconstruct_members` — what `reconstruct` returns, for every pattern of missing
  and handled members and every choice of shares.
-/

namespace Mlvpn.Ports.FecReconstruct

open FecGf Protocol FecSend FecRecovery FecRecoveryBuffer Verified.ErasureCode

/-! ## Stripping the known members -/

/-- The share `x'` is `x` with the symbols `D i` of the listed, non-missing
positions added under the weights `w`. -/
def Stripped (w : Nat → Gf) (D : Nat → Bytes) (missing : List Nat) (l : List (UInt64 × Nat)) :
    Option Bytes → Option Bytes → Prop
  | none, none => True
  | some x, some x' => x'.length = x.length ∧ ∀ j, sym x' j = sym x j +
      (((l.map Prod.snd).filter (· ∉ missing)).map fun i => w i * sym (D i) j).sum
  | _, _ => False

variable {ms : List Member} {b : FecRecoveryBuffer} {shares : ShareSet} {i : Nat}
  {missing : List Nat} {D : Nat → Bytes} {l : List (UInt64 × Nat)} {x : Option Bytes}
  {x' : Option Bytes} {w : Nat → Gf} {seq : UInt64}

theorem Stripped.nil (w : Nat → Gf) (D : Nat → Bytes) (missing : List Nat) (x : Option Bytes) :
    Stripped w D missing [] x x := by
  cases x with
  | none => trivial
  | some x => exact ⟨rfl, fun j => by simp⟩

theorem Stripped.skip (h : Stripped w D missing l x x') (hi : i ∈ missing) :
    Stripped w D missing ((seq, i) :: l) x x' := by
  cases x with
  | none => cases x' <;> exact h
  | some y =>
    cases x' with
    | none => exact h
    | some y' => simpa [Stripped, hi] using h

/-- Folding in one member first, then the rest. -/
theorem Stripped.cons {f : Bytes → Bytes} (hi : i ∉ missing)
    (hlen : ∀ y, x = some y → (f y).length = y.length)
    (hsym : ∀ y, x = some y → ∀ j, sym (f y) j = sym y j + w i * sym (D i) j)
    (h : Stripped w D missing l (x.map f) x') : Stripped w D missing ((seq, i) :: l) x x' := by
  cases x with
  | none => cases x' <;> exact h
  | some y =>
    cases x' with
    | none => exact h
    | some y' =>
      obtain ⟨hlength, hsymbol⟩ := h
      refine ⟨hlength.trans (hlen y rfl), fun j => ?_⟩
      rw [hsymbol j, hsym y rfl j]
      simp [hi, add_assoc]

/-- With every non-missing plaintext in hand and none wider than the shares,
the strip succeeds and removes exactly those members. -/
theorem stripKnown_spec {payloads : Payloads} {width : Nat} {pp qp : Option Bytes}
    (hD : ∀ m ∈ l, m.2 ∉ missing → ∃ t, payloads.lookup m.1 = some (t, D m.2))
    (hfit : ∀ m ∈ l, m.2 ∉ missing → (D m.2).length ≤ width)
    (hp : ∀ x, pp = some x → x.length = width) (hq : ∀ x, qp = some x → x.length = width) :
    ∃ pp' qp', stripKnown payloads width missing l (pp, qp) = some (pp', qp') ∧
      Stripped (weights .P) D missing l pp pp' ∧ Stripped (weights .Q) D missing l qp qp' := by
  induction l generalizing pp qp with
  | nil => exact ⟨pp, qp, rfl, Stripped.nil _ D missing pp, Stripped.nil _ D missing qp⟩
  | cons m l ih =>
    obtain ⟨seq, i⟩ := m
    have hD' : ∀ m ∈ l, m.2 ∉ missing → ∃ t, payloads.lookup m.1 = some (t, D m.2) :=
      fun m hm => hD m (List.mem_cons_of_mem _ hm)
    have hfit' : ∀ m ∈ l, m.2 ∉ missing → (D m.2).length ≤ width :=
      fun m hm => hfit m (List.mem_cons_of_mem _ hm)
    rw [stripKnown]
    by_cases hi : i ∈ missing
    · obtain ⟨pp', qp', hrest, hP, hQ⟩ := ih hD' hfit' hp hq
      rw [if_pos hi]
      exact ⟨pp', qp', hrest, hP.skip hi, hQ.skip hi⟩
    · obtain ⟨t, hlook⟩ := hD (seq, i) (by simp) hi
      have hwide : (D i).length ≤ width := hfit (seq, i) (by simp) hi
      obtain ⟨pp', qp', hrest, hP, hQ⟩ :=
        @ih (pp.map (xorInto · (D i))) (qp.map (mulAcc · (D i) (pow2 i))) hD' hfit'
          (by
            intro x hx
            obtain ⟨y, hy, rfl⟩ := Option.map_eq_some_iff.1 hx
            rw [xorInto_length, hp y hy])
          (by
            intro x hx
            obtain ⟨y, hy, rfl⟩ := Option.map_eq_some_iff.1 hx
            rw [mulAcc_length, hq y hy])
      rw [if_neg hi]
      simp only [hlook, not_lt.2 hwide, if_false]
      refine ⟨pp', qp', hrest, ?_, ?_⟩
      · refine Stripped.cons hi (fun y _ => xorInto_length y (D i)) ?_ hP
        intro y hy j
        rw [sym_xorInto (hwide.trans_eq (hp y hy).symm)]
        simp [weights]
      · refine Stripped.cons hi (fun y _ => mulAcc_length y (D i) _) ?_ hQ
        intro y hy j
        rw [sym_mulAcc (hwide.trans_eq (hq y hy).symm)]
        rfl

/-- `x`, if present, has width `w` and carries the syndrome of the members at
the positions `M`. -/
def IsSyndrome (k : ParityKind) (ms : List Member) (M : Finset Nat) (w : Nat)
    (x : Option Bytes) : Prop :=
  ∀ y, x = some y → y.length = w ∧ ∀ j, sym y j = syndrome (weights k) (memberSym ms j) M

/-- Over a whole group the added contributions are the known part of the
checksum, so a stripped share is the syndrome of the missing members. -/
theorem Stripped.isSyndrome {k : ParityKind} (hx : ∀ y, x = some y → SumsTo k ms y)
    (hmissing : ∀ i ∈ missing, i < ms.length)
    (h : Stripped (weights k) (fun i => (ms.getD i (0, [])).2) missing
      (ms.map Prod.fst).zipIdx x x') :
    IsSyndrome k ms missing.toFinset (width ms) x' := by
  intro y' hy'
  subst hy'
  cases x with
  | none => exact h.elim
  | some y =>
    have hsums := hx y rfl
    refine ⟨h.1.trans hsums.length, fun j => ?_⟩
    have hsnd : (ms.map Prod.fst).zipIdx.map Prod.snd = List.range ms.length := by
      rw [List.zipIdx_map_snd, List.length_map, List.range_eq_range']
    have hsum : (((List.range ms.length).filter (· ∉ missing)).map fun i =>
        weights k i * sym (ms.getD i (0, [])).2 j).sum =
          known (weights k) (memberSym ms j) ms.length missing.toFinset := by
      rw [known, ← List.sum_toFinset _ (List.nodup_range.filter _), List.toFinset_filter,
        List.toFinset_range]
      simp [memberSym]
    have hsub : missing.toFinset ⊆ Finset.range ms.length := by
      intro i hi
      exact Finset.mem_range.2 (hmissing i (List.mem_toFinset.1 hi))
    rw [h.2 j, hsnd, hsum, hsums.symbol j, ← Gf.sub_eq_add', checksum_sub_known _ _ hsub]

/-- A strip keeps which shares are present. -/
theorem Stripped.isSome (h : Stripped w D missing l x x') : x'.isSome = x.isSome := by
  cases x <;> cases x' <;> first | rfl | exact h.elim

/-! ## Solving for the missing members -/

/-- `d` is member `i` of the group, padded to width `w`. -/
def IsPadded (ms : List Member) (w i : Nat) (d : Bytes) : Prop :=
  d.length = w ∧ ∀ j, sym d j = memberSym ms j i

/-- One erasure, from the plain share or from the weighted one. -/
theorem solve_single {a w : Nat} {pp qp : Option Bytes} (hP : IsSyndrome .P ms {a} w pp)
    (hQ : IsSyndrome .Q ms {a} w qp) (hsome : pp.isSome ∨ qp.isSome) :
    ∃ d, solve [a] (pp, qp) = some [(a, d)] ∧ IsPadded ms w a d := by
  cases pp with
  | some x =>
    obtain ⟨hlen, hsym⟩ := hP x rfl
    refine ⟨x, rfl, hlen, fun j => ?_⟩
    rw [hsym j]
    simp [syndrome, weights]
  | none =>
    cases qp with
    | none => simp at hsome
    | some x =>
      obtain ⟨hlen, hsym⟩ := hQ x rfl
      refine ⟨scale x (inv (pow2 a)), rfl, by rw [scale_length, hlen], fun j => ?_⟩
      have hw : weights .Q a ≠ 0 := weight_ne_zero a
      rw [sym_scale, hsym j, ← recover_weighted (d := memberSym ms j) hw, Gf.inv_def hw]
      rfl

/-- Two erasures, from both shares. -/
theorem solve_pair {a b w : Nat} {x y : Bytes} (hab : a < b) (hb : b < 255)
    (hP : IsSyndrome .P ms {a, b} w (some x)) (hQ : IsSyndrome .Q ms {a, b} w (some y)) :
    ∃ da db, solve [a, b] (some x, some y) = some [(a, da), (b, db)] ∧
      IsPadded ms w a da ∧ IsPadded ms w b db := by
  obtain ⟨hxlen, hxsym⟩ := hP x rfl
  obtain ⟨hylen, hysym⟩ := hQ y rfl
  have hne : a ≠ b := by omega
  have hw : weight a ≠ weight b := weight_ne (by omega) hb hne
  have hdb : IsPadded ms w b (scale (mulAcc y x (pow2 a)) (inv (pow2 a ^^^ pow2 b))) := by
    refine ⟨by rw [scale_length, mulAcc_length, hylen], fun j => ?_⟩
    have hsum : weight b - weight a = ⟨pow2 a ^^^ pow2 b⟩ := by
      rw [Gf.sub_eq_add', add_comm]
      rfl
    have hsolve := recover_pair (d := memberSym ms j) hne hw
    rw [Gf.inv_def (sub_ne_zero.2 hw.symm), hsum, Gf.sub_eq_add'] at hsolve
    rw [sym_scale, sym_mulAcc (by omega), hxsym j, hysym j]
    exact hsolve
  refine ⟨_, _, rfl, ⟨by rw [xorInto_length, hxlen], fun j => ?_⟩, hdb⟩
  rw [sym_xorInto (by rw [hdb.1, hxlen]), hdb.2 j, hxsym j, syndrome_pair hne,
    ← Gf.sub_eq_add']
  simp [weights]

/-- Truncating a padded member to its declared length gives the member back. -/
theorem IsPadded.take {d : Bytes} (hd : IsPadded ms (width ms) i d) (hi : i < ms.length) :
    d.take (ms.getD i (0, [])).2.length = (ms.getD i (0, [])).2 := by
  have hmem : ms.getD i (0, []) ∈ ms := by
    rw [List.getD_eq_getElem _ _ hi]
    exact List.getElem_mem hi
  have hwidth := length_le_width hmem
  apply eq_of_sym_eq
  · rw [List.length_take, hd.1]
    omega
  · intro j hj
    rw [List.length_take] at hj
    rw [sym_take (by omega), hd.2 j]
    rfl

/-! ## The whole evaluation -/

theorem mem_positions {st : MemberState} {seqs : List UInt64} :
    i ∈ b.positions st seqs ↔ ∃ seq, seqs[i]? = some seq ∧ b.memberState seq = st := by
  unfold positions
  constructor
  · intro hi
    obtain ⟨⟨seq, k⟩, hmem, rfl⟩ := List.mem_map.1 hi
    obtain ⟨hzip, hst⟩ := List.mem_filter.1 hmem
    exact ⟨seq, List.mem_zipIdx_iff_getElem?.1 hzip, by simpa using hst⟩
  · rintro ⟨seq, hseq, hst⟩
    refine List.mem_map.2 ⟨(seq, i), List.mem_filter.2 ⟨?_, by simpa using hst⟩, rfl⟩
    exact List.mem_zipIdx_iff_getElem?.2 hseq

/-- Positions come out in group order, each once. -/
theorem positions_pairwise (b : FecRecoveryBuffer) (st : MemberState) (seqs : List UInt64) :
    (b.positions st seqs).Pairwise (· < ·) := by
  have hsub : (b.positions st seqs).Sublist (List.range seqs.length) := by
    rw [List.range_eq_range', ← List.zipIdx_map_snd]
    exact List.filter_sublist.map Prod.snd
  exact List.Pairwise.sublist hsub List.pairwise_lt_range

theorem memberState_cases (b : FecRecoveryBuffer) (seq : UInt64) :
    b.memberState seq = .Known ∨ b.memberState seq = .Handled ∨ b.memberState seq = .Missing := by
  cases b.memberState seq <;> simp

theorem memberState_eq_known : b.memberState seq = .Known ↔ seq ∈ b.payloads := by
  unfold memberState
  split
  · simpa
  · rename_i h
    simp only [h, iff_false]
    split
    · simp
    · split
      · simp
      · split <;> simp

/-- The shares in hand are shares of the group `ms`, and there is at least one. -/
structure SharesOf (ms : List Member) (shares : ShareSet) : Prop where
  p : ∀ p, shares.p = some p → Covers .P ms p
  q : ∀ q, shares.q = some q → Covers .Q ms q
  any : shares.p.isSome ∨ shares.q.isSome

/-- A group that fits the wire format: at most 255 members of at most 65535
bytes. -/
structure WireGroup (ms : List Member) : Prop where
  size : ms.length ≤ 255
  lens : ∀ m ∈ ms, m.2.length ≤ 65535

/-- Every plaintext retained for a member of `ms` is that member's own. -/
def Retains (b : FecRecoveryBuffer) (ms : List Member) : Prop :=
  ∀ m ∈ ms, ∀ t bytes, b.payloads.lookup m.1 = some (t, bytes) → bytes = m.2

theorem SharesOf.exists_any (h : SharesOf ms shares) :
    ∃ any, shares.p.or shares.q = some any ∧ any.memberSeqs = ms.map Prod.fst ∧
      any.memberLens = ms.map fun m => UInt16.ofNat m.2.length := by
  cases hp : shares.p with
  | some p => exact ⟨p, rfl, (h.p p hp).seqs, (h.p p hp).lens⟩
  | none =>
    cases hq : shares.q with
    | some q => exact ⟨q, rfl, (h.q q hq).seqs, (h.q q hq).lens⟩
    | none => simpa [hp, hq] using h.any

theorem SharesOf.shareWidth_eq (h : SharesOf ms shares) : shareWidth shares = some (width ms) := by
  obtain ⟨p, q⟩ := shares
  cases p with
  | some p =>
    have hp := h.p p rfl
    cases q with
    | some q =>
      have hq := h.q q rfl
      simp [shareWidth, hp.seqs, hp.lens, hq.seqs, hq.lens, hp.sums.length, hq.sums.length]
    | none => simp [shareWidth, hp.sums.length]
  | none =>
    cases q with
    | some q => simp [shareWidth, (h.q q rfl).sums.length]
    | none => simpa using h.any

/-- The declared length of a member is its length. -/
theorem lens_getD (hms : WireGroup ms) (hi : i < ms.length) :
    ((ms.map fun m => UInt16.ofNat m.2.length).getD i 0).toNat =
      (ms.getD i (0, [])).2.length := by
  have hlen := hms.lens (ms.get ⟨i, hi⟩) (List.getElem_mem hi)
  rw [List.getD_eq_getElem _ _ (by simpa using hi), List.getD_eq_getElem _ _ hi, List.getElem_map]
  exact UInt16.toNat_ofNat_of_lt' (by simpa [UInt16.size] using Nat.lt_succ_of_le hlen)

theorem seqs_getD (i : Nat) : (ms.map Prod.fst).getD i 0 = (ms.getD i (0, [])).1 := by
  simp only [List.getD_eq_getElem?_getD, List.getElem?_map]
  cases ms[i]? <;> rfl

/-- A padded member, cut to its declared length and labelled, is the member. -/
theorem IsPadded.member (hms : WireGroup ms) {d : Bytes} (hd : IsPadded ms (width ms) i d)
    (hi : i < ms.length) :
    ((ms.map Prod.fst).getD i 0,
      d.take ((ms.map fun m => UInt16.ofNat m.2.length).getD i 0).toNat) = ms.getD i (0, []) := by
  rw [seqs_getD, lens_getD hms hi, hd.take hi]

theorem maxErasures_le_two (b : FecRecoveryBuffer) : b.maxErasures ≤ 2 := by
  unfold maxErasures
  split <;> omega

/-- When nothing is merely handled, every non-missing member's plaintext is in
hand, so the strip and the solve go through and give the missing members. -/
theorem strip_solve (hms : WireGroup ms) (hs : SharesOf ms shares) (hr : Retains b ms)
    (hhandled : b.positions .Handled (ms.map Prod.fst) = [])
    (hne : b.positions .Missing (ms.map Prod.fst) ≠ [])
    (htwo : (b.positions .Missing (ms.map Prod.fst)).length ≤ 2)
    (hboth : (b.positions .Missing (ms.map Prod.fst)).length = 2 →
      shares.p.isSome ∧ shares.q.isSome) :
    ∃ stripped out,
      stripKnown b.payloads (width ms) (b.positions .Missing (ms.map Prod.fst))
        (ms.map Prod.fst).zipIdx (shares.p.map (·.parity), shares.q.map (·.parity)) =
          some stripped ∧
      solve (b.positions .Missing (ms.map Prod.fst)) stripped = some out ∧
      (out.map fun d => ((ms.map Prod.fst).getD d.1 0,
        d.2.take ((ms.map fun m => UInt16.ofNat m.2.length).getD d.1 0).toNat)) =
        (b.positions .Missing (ms.map Prod.fst)).map fun i => ms.getD i (0, []) := by
  have hsorted := positions_pairwise b .Missing (ms.map Prod.fst)
  have hlt : ∀ i ∈ b.positions .Missing (ms.map Prod.fst), i < ms.length := by
    intro i hi
    obtain ⟨seq, hseq, -⟩ := mem_positions.1 hi
    simpa using (List.getElem?_eq_some_iff.1 hseq).1
  have hknown : ∀ m ∈ (ms.map Prod.fst).zipIdx, m.2 ∉ b.positions .Missing (ms.map Prod.fst) →
      ∃ t, b.payloads.lookup m.1 = some (t, (ms.getD m.2 (0, [])).2) := by
    rintro ⟨seq, i⟩ hm hi
    have hseq := List.mem_zipIdx_iff_getElem?.1 hm
    have hstate : b.memberState seq = .Known := by
      rcases memberState_cases b seq with h | h | h
      · exact h
      · have hi' : i ∈ b.positions .Handled (ms.map Prod.fst) := mem_positions.2 ⟨seq, hseq, h⟩
        simp [hhandled] at hi'
      · exact absurd (mem_positions.2 ⟨seq, hseq, h⟩) hi
    obtain ⟨⟨t, bytes⟩, hlook⟩ :=
      Option.isSome_iff_exists.1 (AList.lookup_isSome.2 (memberState_eq_known.1 hstate))
    simp only [List.getElem?_map, Option.map_eq_some_iff] at hseq
    obtain ⟨m, hget, rfl⟩ := hseq
    have hbytes := hr m (List.mem_of_getElem? hget) t bytes hlook
    refine ⟨t, ?_⟩
    simp [hget, hlook, hbytes]
  have hfit : ∀ m ∈ (ms.map Prod.fst).zipIdx, m.2 ∉ b.positions .Missing (ms.map Prod.fst) →
      (ms.getD m.2 (0, [])).2.length ≤ width ms := by
    rintro ⟨seq, i⟩ hm -
    have hseq := List.mem_zipIdx_iff_getElem?.1 hm
    have hi : i < ms.length := by simpa using (List.getElem?_eq_some_iff.1 hseq).1
    rw [List.getD_eq_getElem _ _ hi]
    exact length_le_width (List.getElem_mem hi)
  have hp : ∀ x, shares.p.map (·.parity) = some x → SumsTo .P ms x := by
    intro x hx
    obtain ⟨p, hp, rfl⟩ := Option.map_eq_some_iff.1 hx
    exact (hs.p p hp).sums
  have hq : ∀ x, shares.q.map (·.parity) = some x → SumsTo .Q ms x := by
    intro x hx
    obtain ⟨q, hq, rfl⟩ := Option.map_eq_some_iff.1 hx
    exact (hs.q q hq).sums
  obtain ⟨pp', qp', hstrip, hP, hQ⟩ := stripKnown_spec
    (D := fun i => (ms.getD i (0, [])).2) hknown hfit
    (fun x hx => (hp x hx).length) (fun x hx => (hq x hx).length)
  have hPsyn := hP.isSyndrome hp hlt
  have hQsyn := hQ.isSyndrome hq hlt
  have hPsome := hP.isSome
  have hQsome := hQ.isSome
  rw [Option.isSome_map] at hPsome hQsome
  refine ⟨(pp', qp'), ?_⟩
  generalize b.positions .Missing (ms.map Prod.fst) = missing at *
  -- One or two positions are missing, in order.
  match missing, hne, htwo, hsorted with
  | [a], _, _, _ =>
    obtain ⟨d, hsolve, hd⟩ := solve_single (by simpa using hPsyn) (by simpa using hQsyn)
      (by rw [hPsome, hQsome]; exact hs.any)
    refine ⟨_, hstrip, hsolve, ?_⟩
    simp only [List.map_cons, List.map_nil]
    rw [hd.member hms (hlt a (by simp))]
  | [a, c], _, _, hsorted =>
    obtain ⟨hpSome, hqSome⟩ := hboth rfl
    obtain ⟨x, rfl⟩ := Option.isSome_iff_exists.1 (hPsome.trans hpSome)
    obtain ⟨y, rfl⟩ := Option.isSome_iff_exists.1 (hQsome.trans hqSome)
    have hac : a < c := by simpa using hsorted
    have hc := hlt c (by simp)
    have hsize := hms.size
    obtain ⟨da, dc, hsolve, hda, hdc⟩ := solve_pair hac (by omega) (by simpa using hPsyn)
      (by simpa using hQsyn)
    refine ⟨_, hstrip, hsolve, ?_⟩
    simp only [List.map_cons, List.map_nil]
    rw [hda.member hms (by omega), hdc.member hms hc]

/-- The answer of `reconstruct` on shares of one group: decided by which
members are missing and which are only handled, and exact when it recovers. -/
theorem reconstruct_eq (hms : WireGroup ms) (hs : SharesOf ms shares) (hr : Retains b ms) :
    b.reconstruct shares =
      if b.positions .Missing (ms.map Prod.fst) = [] then .AlreadyComplete
      else if (b.positions .Missing (ms.map Prod.fst)).length > b.maxErasures ∨
          (b.positions .Handled (ms.map Prod.fst)).length > 0 then .Unrecoverable
      else if (b.positions .Missing (ms.map Prod.fst)).length = 2 ∧
          ¬(shares.p.isSome ∧ shares.q.isSome) then
        .NeedMore ((b.positions .Missing (ms.map Prod.fst)).map fun i => (ms.getD i (0, [])).1)
      else .Recovered
        ((b.positions .Missing (ms.map Prod.fst)).map fun i => ms.getD i (0, [])) := by
  obtain ⟨any, hany, hseqs, hlens⟩ := hs.exists_any
  unfold reconstruct
  simp only [hany, hseqs, hlens, hs.shareWidth_eq, seqs_getD]
  by_cases hne : b.positions .Missing (ms.map Prod.fst) = []
  · simp only [hne, if_true]
  rw [if_neg hne, if_neg hne]
  by_cases hbad : (b.positions .Missing (ms.map Prod.fst)).length > b.maxErasures ∨
      (b.positions .Handled (ms.map Prod.fst)).length > 0
  · rw [if_pos hbad, if_pos hbad]
  rw [if_neg hbad, if_neg hbad]
  by_cases hmore : (b.positions .Missing (ms.map Prod.fst)).length = 2 ∧
      ¬(shares.p.isSome ∧ shares.q.isSome)
  · rw [if_pos hmore, if_pos hmore]
  rw [if_neg hmore, if_neg hmore]
  have hdeclared : ¬∃ i ∈ b.positions .Missing (ms.map Prod.fst),
      ((ms.map fun m => UInt16.ofNat m.2.length).getD i 0).toNat > width ms := by
    rintro ⟨i, hi, hgt⟩
    obtain ⟨seq, hseq, -⟩ := mem_positions.1 hi
    have hlt : i < ms.length := by simpa using (List.getElem?_eq_some_iff.1 hseq).1
    rw [lens_getD hms hlt, List.getD_eq_getElem _ _ hlt] at hgt
    exact absurd (length_le_width (List.getElem_mem hlt)) (by omega)
  obtain ⟨hcount, hhandled⟩ := not_or.1 hbad
  obtain ⟨stripped, out, hstrip, hsolve, hout⟩ := strip_solve hms hs hr
    (List.length_eq_zero_iff.1 (by omega)) hne (by have := maxErasures_le_two b; omega)
    (fun htwo => not_not.1 fun hshares => hmore ⟨htwo, hshares⟩)
  rw [if_neg hdeclared]
  simp only [hstrip, hsolve]
  rw [← hout]
  simp only [seqs_getD]

/-- Reading the members at the selected positions selects among the members. -/
theorem positions_map_getD (b : FecRecoveryBuffer) (st : MemberState) (ms : List Member) :
    (b.positions st (ms.map Prod.fst)).map (fun i => ms.getD i (0, [])) =
      ms.filter fun m => b.memberState m.1 = st := by
  have hzip : (ms.map Prod.fst).zipIdx = ms.zipIdx.map fun x => (x.1.1, x.2) :=
    List.zipIdx_map
  unfold positions
  rw [hzip, List.filter_map, List.map_map, List.map_map]
  have hread : ∀ x ∈ ms.zipIdx.filter ((fun m : UInt64 × Nat => decide (b.memberState m.1 = st)) ∘
      fun x : Member × Nat => (x.1.1, x.2)), ms.getD x.2 (0, []) = x.1 := by
    rintro ⟨m, i⟩ hx
    have hget := List.mem_zipIdx_iff_getElem?.1 (List.mem_filter.1 hx).1
    rw [List.getD_eq_getElem?_getD, hget]
    rfl
  refine (List.map_congr_left hread).trans ?_
  have hfst : ms = ms.zipIdx.map Prod.fst := List.zipIdx_map_fst 0 ms |>.symm
  conv_rhs => rw [hfst, List.filter_map]
  rfl

/-- The members of the group in the given state. -/
def membersIn (b : FecRecoveryBuffer) (st : MemberState) (ms : List Member) : List Member :=
  ms.filter fun m => b.memberState m.1 = st

theorem length_positions (b : FecRecoveryBuffer) (st : MemberState) (ms : List Member) :
    (b.positions st (ms.map Prod.fst)).length = (membersIn b st ms).length := by
  rw [membersIn, ← positions_map_getD, List.length_map]

/-- `reconstruct_eq` over members instead of positions. -/
theorem reconstruct_members (hms : WireGroup ms) (hs : SharesOf ms shares) (hr : Retains b ms) :
    b.reconstruct shares =
      if membersIn b .Missing ms = [] then .AlreadyComplete
      else if (membersIn b .Missing ms).length > b.maxErasures ∨
          (membersIn b .Handled ms).length > 0 then .Unrecoverable
      else if (membersIn b .Missing ms).length = 2 ∧ ¬(shares.p.isSome ∧ shares.q.isSome) then
        .NeedMore ((membersIn b .Missing ms).map Prod.fst)
      else .Recovered (membersIn b .Missing ms) := by
  have hempty : b.positions .Missing (ms.map Prod.fst) = [] ↔ membersIn b .Missing ms = [] := by
    rw [← List.length_eq_zero_iff, ← List.length_eq_zero_iff, length_positions]
  have hmap := positions_map_getD b .Missing ms
  have hfst : (b.positions .Missing (ms.map Prod.fst)).map (fun i => (ms.getD i (0, [])).1) =
      (membersIn b .Missing ms).map Prod.fst := by
    rw [membersIn, ← hmap, List.map_map]
    rfl
  rw [reconstruct_eq hms hs hr, length_positions, length_positions, hfst, hmap]
  simp only [hempty]
  rfl

/-- A recovery returns exactly the missing members. -/
theorem recovered_eq {frames : List Member} (hms : WireGroup ms) (hs : SharesOf ms shares)
    (hr : Retains b ms) (h : b.reconstruct shares = .Recovered frames) :
    frames = membersIn b .Missing ms := by
  rw [reconstruct_members hms hs hr] at h
  split at h
  · simp at h
  · split at h
    · simp at h
    · split at h
      · simp at h
      · exact (Eval.Recovered.inj h).symm

theorem recovered_subset {frames : List Member} (hms : WireGroup ms) (hs : SharesOf ms shares)
    (hr : Retains b ms) (h : b.reconstruct shares = .Recovered frames) : frames ⊆ ms := by
  rw [recovered_eq hms hs hr h]
  exact List.filter_subset_self _

end Mlvpn.Ports.FecReconstruct
