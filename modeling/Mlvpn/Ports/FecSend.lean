import Mlvpn.Ports.FecGf
import Mlvpn.Ports.Protocol
import Mlvpn.Verified.ErasureCode

/-!
# The sender-side group accumulator

Port of `fec::FecSender`.  Frames are folded one at a time into the parity
bytes `P` (plain XOR) and, with two shares configured, `Q` (position-weighted
sum); the call that fills the group returns both shares and starts afresh.

The abstract content of a share is a checksum of the member symbols over
GF(256).  `accumulate_spec` says that the running state is such a checksum of
the members folded so far, and `frames_covered` that a whole run cuts its frames,
but for the last few, into consecutive groups, each covered by its shares.
-/

namespace Mlvpn.Ports.FecSend

open FecGf Protocol Verified.ErasureCode

/-- Which share of a group a parity frame carries. -/
inductive ParityKind where
  | P
  | Q
deriving Repr, DecidableEq

/-- One completed group: its shares and the link that carried each member. -/
structure FecGroup where
  p : FecParityPayload
  q : Option FecParityPayload
  memberLinks : List Nat
deriving Repr, DecidableEq

/-- The share of the given kind, if the group has one. -/
def FecGroup.share (g : FecGroup) : ParityKind → Option FecParityPayload
  | .P => some g.p
  | .Q => g.q

structure FecSender where
  groupSize : Nat
  withQ : Bool
  memberSeqs : List UInt64
  memberLens : List UInt16
  memberLinks : List Nat
  parity : Bytes
  q : Bytes
deriving Repr, DecidableEq

def FecSender.new (groupSize parityCount : UInt8) : FecSender where
  groupSize := groupSize.toNat
  withQ := decide (2 ≤ parityCount)
  memberSeqs := []
  memberLens := []
  memberLinks := []
  parity := []
  q := []

/-- `if n > buf.len() { buf.resize(n, 0) }`. -/
def growTo (buf : Bytes) (n : Nat) : Bytes :=
  if n > buf.length then buf ++ List.replicate (n - buf.length) 0 else buf

/-- Fold one frame into the current group; returns the group when this frame
completed it. -/
def FecSender.accumulate (s : FecSender) (seq : UInt64) (plaintext : Bytes) (link : Nat) :
    FecSender × Option FecGroup :=
  let parity := xorInto (growTo s.parity plaintext.length) plaintext
  let q := if s.withQ then
      mulAcc (growTo s.q plaintext.length) plaintext (pow2 s.memberSeqs.length)
    else s.q
  let memberSeqs := s.memberSeqs ++ [seq]
  let memberLinks := s.memberLinks ++ [link]
  let memberLens := s.memberLens ++ [UInt16.ofNat plaintext.length]
  if memberSeqs.length < s.groupSize then
    ({ s with memberSeqs, memberLens, memberLinks, parity, q }, none)
  else
    ({ s with memberSeqs := [], memberLens := [], memberLinks := [], parity := [],
              q := if s.withQ then [] else q },
     some { p := { memberSeqs, memberLens, parity }
            q := if s.withQ then some { memberSeqs, memberLens, parity := q } else none
            memberLinks })

/-- A data frame as the sender sees it: sequence number, plaintext, link. -/
structure Frame where
  seq : UInt64
  plaintext : Bytes
  link : Nat
deriving Repr, DecidableEq

/-- Feed frames in order; the completed groups, in order. -/
def sendAll : FecSender → List Frame → List FecGroup
  | _, [] => []
  | s, f :: fs =>
      match s.accumulate f.seq f.plaintext f.link with
      | (s', some g) => g :: sendAll s' fs
      | (s', none) => sendAll s' fs

/-! ## Groups as checksums -/

/-- A group member: its sequence number and plaintext. -/
abbrev Member := UInt64 × Bytes

/-- Symbol `j` of the member at position `i`. -/
def memberSym (ms : List Member) (j i : Nat) : Gf := sym (ms.getD i (0, [])).2 j

/-- The width of a group's shares: its longest member. -/
def width (ms : List Member) : Nat := (ms.map fun m => m.2.length).foldr max 0

/-- The weights under which a share sums its members. -/
def weights : ParityKind → Nat → Gf
  | .P => fun _ => 1
  | .Q => weight

/-- `bytes` is the checksum of `ms` under the weights of share `k`, padded to
the longest member. -/
structure SumsTo (k : ParityKind) (ms : List Member) (bytes : Bytes) : Prop where
  length : bytes.length = width ms
  symbol : ∀ j, sym bytes j = checksum (weights k) (memberSym ms j) ms.length

/-- The payload `p` is share `k` of the group `ms`. -/
structure Covers (k : ParityKind) (ms : List Member) (p : FecParityPayload) : Prop where
  seqs : p.memberSeqs = ms.map Prod.fst
  lens : p.memberLens = ms.map fun m => UInt16.ofNat m.2.length
  sums : SumsTo k ms p.parity

/-! ## One frame -/

variable (buf : Bytes) (n : Nat) {k : ParityKind} {s : FecSender} {ms : List Member} {bytes : Bytes}

@[simp] theorem growTo_length : (growTo buf n).length = max buf.length n := by
  unfold growTo
  split
  · simp only [List.length_append, List.length_replicate]; omega
  · omega

/-- Growing pads with zeros, which the symbol stream already has there. -/
theorem sym_growTo (j : Nat) : sym (growTo buf n) j = sym buf j := by
  unfold growTo
  split
  · apply Gf.ext
    simp only [sym, List.getD_eq_getElem?_getD, List.getElem?_append, List.getElem?_replicate]
    split
    · rfl
    · rename_i hj
      rw [List.getElem?_eq_none (by omega)]
      split <;> rfl
  · rfl

theorem width_append_singleton (ms : List Member) (m : Member) :
    width (ms ++ [m]) = max (width ms) m.2.length := by
  induction ms with
  | nil => simp [width]
  | cons a ms ih =>
    simp only [width, List.cons_append, List.map_cons, List.foldr_cons] at ih ⊢
    rw [ih, max_assoc]

theorem length_le_width {m : Member} (hm : m ∈ ms) : m.2.length ≤ width ms := by
  induction ms with
  | nil => simp at hm
  | cons a ms ih =>
    simp only [width, List.map_cons, List.foldr_cons]
    rcases List.mem_cons.1 hm with rfl | hm
    · exact le_max_left _ _
    · exact le_trans (ih hm) (le_max_right _ _)

theorem width_le {n : Nat} (h : ∀ m ∈ ms, m.2.length ≤ n) : width ms ≤ n := by
  induction ms with
  | nil => exact Nat.zero_le n
  | cons a ms ih =>
    simp only [width, List.map_cons, List.foldr_cons]
    exact max_le (h a (by simp)) (ih fun m hm => h m (by simp [hm]))

theorem memberSym_append_lt (m : Member) {i : Nat} (j : Nat) (hi : i < ms.length) :
    memberSym (ms ++ [m]) j i = memberSym ms j i := by
  simp [memberSym, List.getElem?_append_left hi]

theorem memberSym_append_self (ms : List Member) (m : Member) (j : Nat) :
    memberSym (ms ++ [m]) j ms.length = sym m.2 j := by
  simp [memberSym]

theorem SumsTo.nil (k : ParityKind) : SumsTo k [] [] :=
  { length := rfl, symbol := fun _ => rfl }

/-- Adding one weighted member to a running sum: any buffer of the grown length
whose symbols are the old sum plus the new contribution. -/
theorem SumsTo.snoc {bytes' : Bytes} (h : SumsTo k ms bytes) (m : Member)
    (hlen : bytes'.length = max bytes.length m.2.length)
    (hsym : ∀ j, sym bytes' j = sym bytes j + weights k ms.length * sym m.2 j) :
    SumsTo k (ms ++ [m]) bytes' := by
  refine { length := ?_, symbol := ?_ }
  · rw [hlen, h.length, width_append_singleton]
  · intro j
    have hold : checksum (weights k) (memberSym (ms ++ [m]) j) ms.length =
        checksum (weights k) (memberSym ms j) ms.length :=
      checksum_congr fun i hi => memberSym_append_lt m j hi
    rw [hsym, h.symbol, List.length_append, List.length_singleton, checksum_succ, hold,
      memberSym_append_self]

theorem sumsTo_P_snoc (h : SumsTo .P ms bytes) (m : Member) :
    SumsTo .P (ms ++ [m]) (xorInto (growTo bytes m.2.length) m.2) := by
  apply h.snoc m
  · simp
  · intro j
    rw [sym_xorInto (by simp), sym_growTo]
    simp [weights]

theorem sumsTo_Q_snoc (h : SumsTo .Q ms bytes) (m : Member) :
    SumsTo .Q (ms ++ [m]) (mulAcc (growTo bytes m.2.length) m.2 (pow2 ms.length)) := by
  apply h.snoc m
  · simp
  · intro j
    rw [sym_mulAcc (by simp), sym_growTo]
    rfl

/-! ## The accumulator state -/

/-- The sender `s` has folded exactly the members `ms` into its open group. -/
structure Holds (s : FecSender) (ms : List Member) : Prop where
  seqs : s.memberSeqs = ms.map Prod.fst
  lens : s.memberLens = ms.map fun m => UInt16.ofNat m.2.length
  p : SumsTo .P ms s.parity
  q : s.withQ = true → SumsTo .Q ms s.q
  unfilled : ms.length < max 1 s.groupSize

theorem holds_new (groupSize parityCount : UInt8) :
    Holds (FecSender.new groupSize parityCount) [] where
  seqs := rfl
  lens := rfl
  p := SumsTo.nil .P
  q := fun _ => SumsTo.nil .Q
  unfilled := by simp

/-- A group `g` of the sender `s`, with members `ms`: filled to the configured
size, with the configured shares. -/
structure Completes (s : FecSender) (ms : List Member) (g : FecGroup) : Prop where
  size : ms.length = max 1 s.groupSize
  p : Covers .P ms g.p
  q : ∀ q, g.q = some q → Covers .Q ms q
  withQ : g.q.isSome = s.withQ

theorem Completes.covers {g : FecGroup} (h : Completes s ms g) {k : ParityKind}
    {p : FecParityPayload} (hp : g.share k = some p) : Covers k ms p := by
  cases k with
  | P => exact (Option.some.inj hp) ▸ h.p
  | Q => exact h.q p hp

/-- The sender's configuration, which no frame changes. -/
def SameConfig (s s' : FecSender) : Prop :=
  s'.groupSize = s.groupSize ∧ s'.withQ = s.withQ

/-- One frame either extends the open group or completes it and leaves an empty
one. -/
theorem accumulate_spec (h : Holds s ms) (seq : UInt64) (plaintext : Bytes) (link : Nat) :
    SameConfig s (s.accumulate seq plaintext link).1 ∧
    match (s.accumulate seq plaintext link).2 with
    | none => Holds (s.accumulate seq plaintext link).1 (ms ++ [(seq, plaintext)])
    | some g =>
      Holds (s.accumulate seq plaintext link).1 [] ∧
        Completes s (ms ++ [(seq, plaintext)]) g := by
  have hcount : s.memberSeqs.length = ms.length := by rw [h.seqs, List.length_map]
  have hP := sumsTo_P_snoc h.p (seq, plaintext)
  have hQ : s.withQ = true → SumsTo .Q (ms ++ [(seq, plaintext)])
      (mulAcc (growTo s.q plaintext.length) plaintext (pow2 s.memberSeqs.length)) := by
    intro hq
    rw [hcount]
    exact sumsTo_Q_snoc (h.q hq) (seq, plaintext)
  have hseqs : s.memberSeqs ++ [seq] = (ms ++ [(seq, plaintext)]).map Prod.fst := by
    simp [h.seqs]
  have hlens : s.memberLens ++ [UInt16.ofNat plaintext.length] =
      (ms ++ [(seq, plaintext)]).map fun m => UInt16.ofNat m.2.length := by
    simp [h.lens]
  have hlength : (s.memberSeqs ++ [seq]).length = ms.length + 1 := by simp [hcount]
  have hunfilled := h.unfilled
  unfold FecSender.accumulate
  by_cases hfull : (s.memberSeqs ++ [seq]).length < s.groupSize
  · simp only [hfull, if_true]
    refine ⟨⟨rfl, rfl⟩, ?_⟩
    exact
      { seqs := hseqs
        lens := hlens
        p := hP
        q := fun (hq : s.withQ = true) => by simpa [hq] using hQ hq
        unfilled := by
          simp only [List.length_append, List.length_singleton]
          omega }
  · simp only [hfull, if_false]
    refine ⟨⟨rfl, rfl⟩, ?_, ?_⟩
    · exact
        { seqs := rfl
          lens := rfl
          p := SumsTo.nil .P
          q := fun (hq : s.withQ = true) => by simpa [hq] using SumsTo.nil .Q
          unfilled := by simp }
    · exact
        { size := by
            simp only [List.length_append, List.length_singleton]
            omega
          p := { seqs := hseqs, lens := hlens, sums := hP }
          q := by
            intro q hq
            cases hw : s.withQ with
            | false => simp [hw] at hq
            | true =>
              simp only [hw, if_true, Option.some.injEq] at hq
              subst hq
              exact { seqs := hseqs, lens := hlens, sums := hQ hw }
          withQ := by cases hw : s.withQ <;> simp }

/-! ## Whole runs -/

def Frame.member (f : Frame) : Member := (f.seq, f.plaintext)

/-- A run cuts its frames into consecutive groups, each completed by its
shares; a last partial group stays open and produces nothing. -/
theorem sendAll_cut (h : Holds s ms) (fs : List Frame) :
    ∃ (groups : List (List Member)) (rest : List Member),
      groups.flatten ++ rest = ms ++ fs.map Frame.member ∧ rest.length < max 1 s.groupSize ∧
        List.Forall₂ (Completes s) groups (sendAll s fs) := by
  induction fs generalizing s ms with
  | nil => exact ⟨[], ms, by simp, h.unfilled, List.Forall₂.nil⟩
  | cons f fs ih =>
    obtain ⟨⟨hsize, hwithQ⟩, hspec⟩ := accumulate_spec h f.seq f.plaintext f.link
    have hconfig : ∀ ms' g, Completes (s.accumulate f.seq f.plaintext f.link).1 ms' g →
        Completes s ms' g := fun ms' g hg =>
      { size := by rw [hg.size, hsize]
        p := hg.p
        q := hg.q
        withQ := by rw [hg.withQ, hwithQ] }
    rw [sendAll]
    cases hacc : s.accumulate f.seq f.plaintext f.link with
    | mk s' g =>
      rw [hacc] at hspec hconfig hsize
      cases g with
      | none =>
        obtain ⟨groups, rest, hcut, hrest, hall⟩ := ih hspec
        refine ⟨groups, rest, by simpa [Frame.member] using hcut, by rwa [← hsize], ?_⟩
        exact hall.imp fun ms' g hg => hconfig ms' g hg
      | some g =>
        obtain ⟨hnext, hdone⟩ := hspec
        obtain ⟨groups, rest, hcut, hrest, hall⟩ := ih hnext
        refine ⟨(ms ++ [f.member]) :: groups, rest, ?_, by rwa [← hsize], ?_⟩
        · simpa using hcut
        · exact List.Forall₂.cons hdone (hall.imp fun ms' g hg => hconfig ms' g hg)

theorem sendAll_completes (h : Holds s ms) (fs : List Frame) :
    ∃ groups : List (List Member),
      groups.flatten <+: ms ++ fs.map Frame.member ∧
        List.Forall₂ (Completes s) groups (sendAll s fs) := by
  obtain ⟨groups, rest, hcut, -, hall⟩ := sendAll_cut h fs
  exact ⟨groups, ⟨rest, hcut⟩, hall⟩

/-- Groups and completed shares match one to one, so each has its partner. -/
theorem completes_partners {groups : List (List Member)} {sent : List FecGroup}
    (h : List.Forall₂ (Completes s) groups sent) :
    (∀ ms ∈ groups, ∃ g ∈ sent, Completes s ms g) ∧
      ∀ g ∈ sent, ∃ ms ∈ groups, Completes s ms g := by
  induction h with
  | nil => simp
  | cons hfirst _ ih =>
    constructor
    · intro ms hms
      rcases List.mem_cons.1 hms with rfl | hms
      · exact ⟨_, by simp, hfirst⟩
      · obtain ⟨g, hg, hdone⟩ := ih.1 ms hms
        exact ⟨g, by simp [hg], hdone⟩
    · intro g hg
      rcases List.mem_cons.1 hg with rfl | hg
      · exact ⟨_, by simp, hfirst⟩
      · obtain ⟨ms, hms, hdone⟩ := ih.2 g hg
        exact ⟨ms, by simp [hms], hdone⟩

/-- **All but the last few frames are covered.**  A run of any length cuts its frames, in order and
without gaps, into full groups with their shares, and fewer frames than make a group. -/
theorem frames_covered (groupSize parityCount : UInt8) (fs : List Frame) :
    let s := FecSender.new groupSize parityCount
    (sendAll s fs).length = fs.length / max 1 groupSize.toNat ∧
      ∃ groups rest, groups.flatten ++ rest = fs.map Frame.member ∧
        rest.length < max 1 groupSize.toNat ∧ List.Forall₂ (Completes s) groups (sendAll s fs) := by
  intro s
  obtain ⟨groups, rest, hcut, (hrest : _ < max 1 groupSize.toNat), hall⟩ :=
    sendAll_cut (holds_new groupSize parityCount) fs
  refine ⟨?_, groups, rest, hcut, hrest, hall⟩
  have hsize : ∀ ms ∈ groups, ms.length = max 1 groupSize.toNat := fun ms hms =>
    have ⟨_, _, hdone⟩ := (completes_partners hall).1 ms hms
    hdone.size
  have hlen := congrArg List.length hcut
  rw [List.length_append, List.length_flatten, List.map_congr_left hsize, List.map_const',
    List.sum_replicate_nat, List.nil_append, List.length_map, hall.length_eq] at hlen
  rw [← hlen, Nat.mul_comm, Nat.mul_add_div (by omega), Nat.div_eq_of_lt hrest, Nat.add_zero]

end Mlvpn.Ports.FecSend
