import Mlvpn.Ports.Sendmmsg
import Mlvpn.Verified.GreedyRuns

/-!
# The plan of coalesced runs is valid and the shortest

`plan_gso_runs` cuts a list of datagrams, in order, into the messages of one
`sendmmsg(2)` call.  The kernel takes several datagrams as one message only if
all have the first one's size, except that the last may be shorter, and only up
to a number of segments and of bytes.

`Coalesces` states what the kernel takes, without reference to the loop.  The
inner loop is then compared with it: what it takes is a run, and nothing longer
is.  A run stays one when its first datagram goes to another message, so the
general fact about greedy cuts applies.

## Main results

* `planGsoRuns_fewest`: the plan cuts the datagrams into valid runs, and no other
  cut into valid runs is shorter.
-/

namespace Mlvpn.Ports.GsoPlan

open Sendmmsg Verified.GreedyRuns

/-! ## What a plan is -/

/-- The number of bytes of a message. -/
def totalLen (run : List Datagram) : Nat := (run.map Datagram.len).sum

/-- `first`, followed by `others`, may be sent as one coalesced message. -/
structure Coalesces (first : Datagram) (others : List Datagram) : Prop where
  first_pos : 0 < first.len
  sizes : ∀ d ∈ others.dropLast, d.len = first.len
  last : ∀ d ∈ others.getLast?, d.len = first.len ∨ 0 < d.len ∧ d.len < first.len
  segments : (first :: others).length ≤ 64
  bytes : totalLen (first :: others) ≤ 65000

/-- A message: one datagram, whatever it is, or several that coalesce. -/
def ValidRun : List Datagram → Prop
  | [] => False
  | [_] => True
  | first :: second :: rest => Coalesces first (second :: rest)

/-- The runs follow one another from index `start` to index `stop`, none of them
empty. -/
def Tiles (stop : Nat) : Nat → List GsoRun → Prop
  | start, [] => start = stop
  | start, run :: runs => run.start = start ∧ 0 < run.len ∧ Tiles stop (start + run.len) runs

/-- `runs` cuts `dgs`, in order, into messages. -/
structure Plan (dgs : List Datagram) (runs : List GsoRun) : Prop where
  tiles : Tiles dgs.length 0 runs
  valid : ∀ run ∈ runs, ValidRun (run.datagrams dgs)

/-- What tiles a list carries the list. -/
theorem Tiles.flatten {dgs : List Datagram} {runs : List GsoRun} {start : Nat}
    (h : Tiles dgs.length start runs) :
    (runs.map fun run => run.datagrams dgs).flatten = dgs.drop start := by
  induction runs generalizing start with
  | nil =>
    have hstop : start = dgs.length := h
    rw [hstop, List.drop_length]
    rfl
  | cons run runs ih =>
    obtain ⟨hstart, _, hnext⟩ := h
    rw [List.map_cons, List.flatten_cons, ih hnext, GsoRun.datagrams, hstart,
      ← List.drop_drop, List.take_append_drop]

variable {size : Nat} (first : Datagram) (rest : List Datagram)

theorem validRun_cons_iff (others : List Datagram) :
    ValidRun (first :: others) ↔ others = [] ∨ Coalesces first others := by
  cases others with
  | nil => simp [ValidRun]
  | cons second rest => simp [ValidRun]

/-- A run without its first datagram is a run. -/
theorem validRun_suffixClosed : SuffixClosed ValidRun := by
  refine suffixClosed_of_tail fun first run hne hvalid => ?_
  cases run with
  | nil => exact absurd rfl hne
  | cons second rest =>
    have hrun : Coalesces first (second :: rest) := hvalid
    cases rest with
    | nil => exact trivial
    | cons third rest =>
      have hsecond : second.len = first.len := hrun.sizes second (by simp)
      have hbytes := hrun.bytes
      have hsegments := hrun.segments
      refine ⟨hsecond ▸ hrun.first_pos, fun d hd => ?_, fun d hd => ?_, ?_, ?_⟩
      · rw [hsecond]
        exact hrun.sizes d (by simp [hd])
      · rw [hsecond]
        exact hrun.last d (by simpa using hd)
      · simp only [List.length_cons] at hsegments ⊢
        omega
      · simp only [totalLen, List.map_cons, List.sum_cons] at hbytes ⊢
        omega

/-! ## The inner loop takes the longest run -/

/-- The datagrams that may follow in a run of size `size` that has `len`
datagrams and `bytes` bytes, in the order in which the loop meets them. -/
def Follows (size : Nat) : Nat → Nat → List Datagram → Prop
  | _, _, [] => True
  | len, bytes, d :: rest =>
      len < GSO_MAX_SEGS ∧ 0 < d.len ∧ d.len ≤ size ∧ bytes + d.len ≤ GSO_MAX_BYTES ∧
        (rest ≠ [] → d.len = size) ∧ Follows size (len + 1) (bytes + d.len) rest

theorem runLen_follows (hsize : 0 < size) (rest : List Datagram) (len bytes : Nat) :
    Follows size len bytes (rest.take (runLen size rest len bytes - len)) := by
  induction rest generalizing len bytes with
  | nil => simp [Follows]
  | cons d rest ih =>
    rw [runLen]
    split
    case isFalse => simp [Follows]
    case isTrue hlen =>
      split
      case isTrue hd =>
        have hle := (runLen_bounds size rest (len + 1) (bytes + d.len)).1
        have hnext := ih (len + 1) (bytes + d.len)
        obtain ⟨k, hk⟩ : ∃ k, runLen size rest (len + 1) (bytes + d.len) = len + 1 + k :=
          ⟨_, (Nat.add_sub_cancel' hle).symm⟩
        rw [hk, Nat.add_sub_cancel_left] at hnext
        rw [hk, show len + 1 + k - len = k + 1 by omega, List.take_succ_cons]
        exact ⟨hlen, by omega, by omega, hd.2, fun _ => hd.1, hnext⟩
      case isFalse =>
        split
        case isTrue hshort =>
          rw [Nat.add_sub_cancel_left, List.take_succ_cons, List.take_zero]
          exact ⟨hlen, hshort.1, by omega, hshort.2.2, by simp, trivial⟩
        case isFalse => simp [Follows]

theorem runLen_longest (len bytes k : Nat) (hk : k ≤ rest.length)
    (h : Follows size len bytes (rest.take k)) : len + k ≤ runLen size rest len bytes := by
  induction rest generalizing len bytes k with
  | nil =>
    have hzero : k = 0 := by simpa using hk
    simp [runLen, hzero]
  | cons d rest ih =>
    cases k with
    | zero => exact (runLen_bounds size (d :: rest) len bytes).1
    | succ k =>
      rw [List.take_succ_cons] at h
      obtain ⟨hlen, hpos, hle, hbytes, hequal, hnext⟩ := h
      have hk : k ≤ rest.length := by simpa using hk
      rw [runLen, if_pos hlen]
      by_cases hd : d.len = size
      · rw [if_pos ⟨hd, hbytes⟩]
        have hge := ih (len + 1) (bytes + d.len) k hk hnext
        omega
      · -- A shorter datagram is the last.
        have hlast : k = 0 := by
          by_contra hmore
          refine hd (hequal fun hnil => ?_)
          rcases List.take_eq_nil_iff.mp hnil with hzero | hempty
          · exact hmore hzero
          · simp only [hempty, List.length_nil] at hk
            omega
        rw [if_neg (fun h => hd h.1), if_pos ⟨hpos, by omega, hbytes⟩, hlast]

/-- `Follows` for a non-empty list, without the loop's counters. -/
theorem follows_iff {len bytes : Nat} {rest : List Datagram} (hsize : 0 < size) (hne : rest ≠ []) :
    Follows size len bytes rest ↔
      (∀ d ∈ rest.dropLast, d.len = size) ∧
      (∀ d ∈ rest.getLast?, d.len = size ∨ 0 < d.len ∧ d.len < size) ∧
      len + rest.length ≤ 64 ∧ bytes + totalLen rest ≤ 65000 := by
  induction rest generalizing len bytes with
  | nil => exact absurd rfl hne
  | cons d rest ih =>
    cases rest with
    | nil =>
      simp only [Follows, GSO_MAX_SEGS, GSO_MAX_BYTES, totalLen, List.dropLast_singleton,
        List.getLast?_singleton, Option.mem_def, Option.some.injEq, forall_eq',
        List.not_mem_nil, List.length_singleton, List.map_cons, List.map_nil,
        List.sum_cons, List.sum_nil]
      simp only [false_implies, implies_true, ne_eq, not_true_eq_false, true_and, and_true,
        Nat.add_zero]
      omega
    | cons e rest =>
      have hnext := @ih (len + 1) (bytes + d.len) (List.cons_ne_nil e rest)
      rw [Follows, hnext]
      simp only [GSO_MAX_SEGS, GSO_MAX_BYTES, totalLen, List.dropLast_cons_cons,
        List.getLast?_cons_cons, List.forall_mem_cons, List.length_cons, List.map_cons,
        List.sum_cons]
      constructor
      · rintro ⟨_, _, _, _, hd, hsizes, hlast, hsegments, hbytes⟩
        exact ⟨⟨hd (List.cons_ne_nil e rest), hsizes⟩, hlast, by omega, by omega⟩
      · rintro ⟨⟨hd, hsizes⟩, hlast, hsegments, hbytes⟩
        exact ⟨by omega, by omega, by omega, by omega, fun _ => hd, hsizes, hlast,
          by omega, by omega⟩

/-- The loop's bookkeeping agrees with what the kernel takes. -/
theorem coalesces_iff_follows {first : Datagram} {others : List Datagram} (hne : others ≠ []) :
    Coalesces first others ↔ 0 < first.len ∧ Follows first.len 1 first.len others := by
  constructor
  · rintro ⟨hpos, hsizes, hlast, hsegments, hbytes⟩
    refine ⟨hpos, (follows_iff hpos hne).mpr ⟨hsizes, hlast, ?_, ?_⟩⟩
    · rw [List.length_cons] at hsegments
      omega
    · simpa [totalLen] using hbytes
  · rintro ⟨hpos, hfollows⟩
    obtain ⟨hsizes, hlast, hsegments, hbytes⟩ := (follows_iff hpos hne).mp hfollows
    refine ⟨hpos, hsizes, hlast, ?_, ?_⟩
    · rw [List.length_cons]
      omega
    · simpa [totalLen] using hbytes

/-- The first run of the plan is a run. -/
theorem firstRun_valid : ValidRun (first :: rest.take (firstRun first rest - 1)) := by
  rw [validRun_cons_iff, firstRun]
  split
  case isTrue h =>
    have hfollows := runLen_follows h.1 rest 1 first.len
    by_cases hone : rest.take (runLen first.len rest 1 first.len - 1) = []
    · exact Or.inl hone
    · exact Or.inr ((coalesces_iff_follows hone).mpr ⟨h.1, hfollows⟩)
  case isFalse => exact Or.inl (by simp)

/-- No run that begins with the same datagram is longer. -/
theorem firstRun_longest (k : Nat) (hk : k ≤ rest.length) (h : ValidRun (first :: rest.take k)) :
    k + 1 ≤ firstRun first rest := by
  by_cases hone : rest.take k = []
  · have hzero : k = 0 := by
      have hlen := congrArg List.length hone
      rw [List.length_take, List.length_nil] at hlen
      omega
    rw [hzero]
    exact (firstRun_bounds first rest).1
  · have hrun := ((validRun_cons_iff first (rest.take k)).mp h).resolve_left hone
    obtain ⟨hpos, hfollows⟩ := (coalesces_iff_follows hone).mp hrun
    have hbytes : first.len ≤ 65000 := by
      have htotal := hrun.bytes
      simp only [totalLen, List.map_cons, List.sum_cons] at htotal
      omega
    rw [firstRun, if_pos ⟨hpos, by omega⟩]
    have hge := runLen_longest rest 1 first.len k hk hfollows
    omega

/-! ## The plan -/

theorem planFrom_tiles (start : Nat) (dgs : List Datagram) :
    Tiles (start + dgs.length) start (planFrom start dgs) := by
  fun_induction planFrom start dgs with
  | case1 start => rfl
  | case2 start first rest ih =>
    obtain ⟨hpos, hle⟩ := firstRun_bounds first rest
    refine ⟨rfl, hpos, ?_⟩
    rw [List.length_drop] at ih
    rw [List.length_cons]
    show Tiles _ (start + firstRun first rest) _
    convert ih using 1
    omega

/-- The plan takes the longest run each time. -/
theorem planFrom_greedy (pre dgs : List Datagram) :
    Greedy ValidRun dgs
      ((planFrom pre.length dgs).map fun run => run.datagrams (pre ++ dgs)) := by
  induction hlen : dgs.length using Nat.strongRecOn generalizing pre dgs with
  | _ n ih =>
    cases dgs with
    | nil =>
      rw [planFrom]
      exact Greedy.nil
    | cons first rest =>
      obtain ⟨hpos, hle⟩ := firstRun_bounds first rest
      have hvalid := firstRun_valid first rest
      have hlongest := firstRun_longest first rest
      rw [planFrom, List.map_cons]
      generalize firstRun first rest = m at hpos hle hvalid hlongest ⊢
      obtain ⟨k, rfl⟩ : ∃ k, m = k + 1 := ⟨m - 1, by omega⟩
      rw [Nat.add_sub_cancel] at hvalid ⊢
      have hk : k ≤ rest.length := by omega
      have hrun : GsoRun.datagrams ⟨pre.length, k + 1⟩ (pre ++ first :: rest) =
          first :: rest.take k := by
        simp [GsoRun.datagrams]
      have hnext := ih (rest.drop k).length
        (by simp only [List.length_drop, List.length_cons] at hlen ⊢; omega)
        (pre ++ first :: rest.take k) (rest.drop k) rfl
      have hpre : (pre ++ first :: rest.take k).length = pre.length + (k + 1) := by
        simp [hk]
      have hsplit : (first :: rest.take k) ++ rest.drop k = first :: rest := by simp
      rw [hpre, List.append_assoc, hsplit] at hnext
      rw [hrun]
      have hcons := Greedy.cons (List.cons_ne_nil first _) hvalid ?_ hnext
      · rwa [hsplit] at hcons
      · -- A longer run that starts here would begin with `first`.
        intro run rest' heq hne hrunValid
        rw [hsplit] at heq
        cases run with
        | nil => exact absurd rfl hne
        | cons d run =>
          obtain ⟨rfl, htail⟩ : d = first ∧ run ++ rest' = rest := List.cons.inj heq
          have htake : run = rest.take run.length := by
            rw [← htail, List.take_left]
          have hbound : run.length ≤ rest.length := by
            rw [← htail, List.length_append]
            omega
          rw [htake] at hrunValid
          have := hlongest run.length hbound hrunValid
          simp only [List.length_cons, List.length_take]
          omega

/-- `plan_gso_runs` cuts the datagrams, in order, into valid messages, and no
other cut into valid messages has fewer. -/
theorem planGsoRuns_fewest (dgs : List Datagram) :
    Plan dgs (planGsoRuns dgs) ∧
      ∀ other, Plan dgs other → (planGsoRuns dgs).length ≤ other.length := by
  have hgreedy : Greedy ValidRun dgs
      ((planGsoRuns dgs).map fun run => run.datagrams dgs) := planFrom_greedy [] dgs
  have htiles : Tiles dgs.length 0 (planGsoRuns dgs) := by
    simpa [planGsoRuns] using planFrom_tiles 0 dgs
  refine ⟨⟨htiles, fun run hrun => ?_⟩, fun other hother => ?_⟩
  · exact hgreedy.forall_valid _ (List.mem_map_of_mem hrun)
  · have hflat : (other.map fun run => run.datagrams dgs).flatten = [] ++ dgs :=
      hother.tiles.flatten
    have hvalid : ∀ run ∈ other.map fun run => run.datagrams dgs, ValidRun run := by
      intro run hrun
      obtain ⟨r, hr, rfl⟩ := List.mem_map.mp hrun
      exact hother.valid r hr
    simpa using Greedy.length_le validRun_suffixClosed hvalid hgreedy hflat

example :
    let sized := fun n => (⟨0, List.replicate n 0⟩ : Datagram)
    planGsoRuns [sized 14, sized 2, sized 2, sized 0, sized 2] =
      [⟨0, 2⟩, ⟨2, 1⟩, ⟨3, 1⟩, ⟨4, 1⟩] := by
  simp [planGsoRuns, planFrom, firstRun, runLen, Datagram.len, GSO_MAX_SEGS, GSO_MAX_BYTES]

end Mlvpn.Ports.GsoPlan
