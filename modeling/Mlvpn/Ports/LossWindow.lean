import Mlvpn.Ports.LinkMonitor

/-!
# What a loss verdict is computed over

`ProbeWindow::counts` and its history.  `record` drops samples from the front for two
reasons, their age and their number, each against a limit of its own; `counts` reads from the
back and stops at the first sample that is older than the window it is asked for.  That
window is `diagnostics.window_secs`, which `validate` does not look at: a window longer than
`PROBE_HISTORY` is accepted, and the samples that it needs are gone.

## Main results

* `trim_spec`: why each sample that `record` drops is dropped.
* `kept_run`: over any calls, what is gone of the records since the last `clear`.
* `counts_cover_window`: a window that the history covers is counted exactly, among the
  latest `PROBE_HISTORY_MAX_SAMPLES` probes.
-/

namespace Mlvpn.Ports.LossWindow

open LinkMonitor
open FecRecovery (Instant)

/-! ## Counting -/

/-- The loop of `counts`, from the newest sample on. -/
def countLoop (now : Instant) (window : Nat) :
    List (Instant × Bool) → Nat × Nat → Nat × Nat
  | [], counts => counts
  | (t, hit) :: older, (total, missed) =>
      if now - t > window then (total, missed)
      else countLoop now window older (total + 1, if hit then missed else missed + 1)

/-- `ProbeWindow::counts`: probes and misses within the last `window`. -/
def counts (w : ProbeWindow) (now : Instant) (window : Nat) : Nat × Nat :=
  countLoop now window w.samples.reverse (0, 0)

/-! ## Histories -/

inductive Call where
  | record (now : Instant) (hit : Bool)
  | clear

def step (w : ProbeWindow) : Call → ProbeWindow
  | .record now hit => w.record now hit
  | .clear => w.clear

def run (calls : List Call) : ProbeWindow := calls.foldl step .default

/-- The records since the last `clear`, the oldest first. -/
def sinceClear (calls : List Call) : List (Instant × Bool) :=
  calls.foldl (fun records call => match call with
    | .record now hit => records ++ [(now, hit)]
    | .clear => []) []

/-- How many records, and how many misses among them, have at most the age `window`. -/
def within (now : Instant) (window : Nat) (records : List (Instant × Bool)) : Nat × Nat :=
  (records.countP fun r => now - r.1 ≤ window,
    records.countP fun r => now - r.1 ≤ window ∧ r.2 = false)

/-- The latest records, as many as are kept at most. -/
def latest (records : List (Instant × Bool)) : List (Instant × Bool) :=
  records.drop (records.length - PROBE_HISTORY_MAX_SAMPLES)

/-- The records come at times that do not decrease, and the question after them. -/
def InOrder (records : List (Instant × Bool)) (now : Instant) : Prop :=
  (records.map Prod.fst ++ [now]).Pairwise (· ≤ ·)

instance decidableInOrder (records : List (Instant × Bool)) (now : Instant) :
    Decidable (InOrder records now) :=
  inferInstanceAs (Decidable (List.Pairwise _ _))

/-! ## The loops -/

theorem within_cons (now : Instant) (window : Nat) (r : Instant × Bool)
    (records : List (Instant × Bool)) :
    within now window (r :: records) =
      if now - r.1 ≤ window then
        ((within now window records).1 + 1,
          if r.2 then (within now window records).2 else (within now window records).2 + 1)
      else within now window records := by
  unfold within
  rw [List.countP_cons, List.countP_cons]
  obtain ⟨t, hit⟩ := r
  by_cases hage : now - t ≤ window
  · cases hit with
    | _ => simp [hage]
  · simp [hage]

variable (n : Nat) {records : List (Instant × Bool)} {w : ProbeWindow} {now : Instant}
  {window : Nat}

/-- Records that are all too old count for nothing. -/
theorem within_of_forall_lt
    (hold : ∀ r ∈ records, window < now - r.1) : within now window records = (0, 0) := by
  induction records with
  | nil => rfl
  | cons r records ih =>
    rw [List.forall_mem_cons] at hold
    rw [within_cons, if_neg (Nat.not_le.mpr hold.1)]
    exact ih hold.2

theorem within_append {old : List (Instant × Bool)} (hold : ∀ r ∈ old, window < now - r.1) :
    within now window (old ++ records) = within now window records := by
  have hnone := within_of_forall_lt hold
  unfold within at hnone ⊢
  rw [Prod.mk.injEq] at hnone
  rw [List.countP_append, List.countP_append, hnone.1, hnone.2, Nat.zero_add, Nat.zero_add]

/-- Read from the newest on, in the order of time, nothing is missed by stopping. -/
theorem countLoop_eq {newest : List (Instant × Bool)}
    (hordered : newest.Pairwise fun a b => b.1 ≤ a.1) (total missed : Nat) :
    countLoop now window newest (total, missed) =
      (total + (within now window newest).1, missed + (within now window newest).2) := by
  induction newest generalizing total missed with
  | nil => rfl
  | cons r older ih =>
    obtain ⟨t, hit⟩ := r
    rw [List.pairwise_cons] at hordered
    rw [countLoop, within_cons]
    by_cases hage : now - t ≤ window
    · rw [if_neg (Nat.not_lt.mpr hage), if_pos hage, ih hordered.2]
      cases hit with
      | _ => simp; omega
    · have hold : ∀ r ∈ older, window < now - r.1 := fun r hr =>
        Nat.lt_of_lt_of_le (Nat.lt_of_not_le hage) (Nat.sub_le_sub_left (hordered.1 r hr) now)
      rw [if_pos (Nat.lt_of_not_le hage), if_neg hage, within_of_forall_lt hold]
      rfl

theorem counts_eq (hordered : w.samples.Pairwise fun a b => a.1 ≤ b.1) :
    counts w now window = within now window w.samples := by
  rw [counts, countLoop_eq (List.pairwise_reverse.mpr hordered), Nat.zero_add, Nat.zero_add]
  unfold within
  rw [List.countP_reverse, List.countP_reverse]

/-- The samples that `record` drops: each is too old, or has too many after it. -/
theorem trim_spec (now : Instant) (samples : List (Instant × Bool)) :
    ∃ dropped, samples = dropped ++ ProbeWindow.trim now samples ∧
      (ProbeWindow.trim now samples).length ≤ PROBE_HISTORY_MAX_SAMPLES ∧
      ∀ i r, dropped[i]? = some r → PROBE_HISTORY < now - r.1 ∨
        i + 1 + PROBE_HISTORY_MAX_SAMPLES ≤ samples.length := by
  induction samples with
  | nil => exact ⟨[], rfl, Nat.zero_le _, nofun⟩
  | cons sample rest ih =>
    obtain ⟨t, hit⟩ := sample
    rw [ProbeWindow.trim]
    split
    case isTrue hdrop =>
      obtain ⟨dropped, hrest, hlength, hwhy⟩ := ih
      refine ⟨(t, hit) :: dropped, by rw [List.cons_append, ← hrest], hlength, ?_⟩
      intro i r hr
      cases i with
      | zero =>
        cases hr
        rw [List.length_cons]
        exact hdrop.imp_right fun hmany => by omega
      | succ i =>
        rw [List.length_cons]
        exact (hwhy i r hr).imp_right fun hmany => by omega
    case isFalse hkeep =>
      refine ⟨[], rfl, ?_, nofun⟩
      rw [List.length_cons]
      omega

/-! ## Any calls -/

/-- What is kept of the records: the end of them, and why the others are gone. -/
structure Kept (records : List (Instant × Bool)) (w : ProbeWindow) : Prop where
  few : w.samples.length ≤ PROBE_HISTORY_MAX_SAMPLES
  gone : ∃ dropped, records = dropped ++ w.samples ∧ ∀ i r, dropped[i]? = some r →
    (∃ later ∈ records, PROBE_HISTORY < later.1 - r.1) ∨
      i + 1 + PROBE_HISTORY_MAX_SAMPLES ≤ records.length

theorem kept_nil (h : w.samples = []) : Kept [] w :=
  ⟨h ▸ Nat.zero_le _, [], h.symm, nofun⟩

theorem kept_record (h : Kept records w) (now : Instant) (hit : Bool) :
    Kept (records ++ [(now, hit)]) (w.record now hit) := by
  obtain ⟨gone, hrecords, hgone⟩ := h.gone
  obtain ⟨dropped, hsamples, hlength, hdropped⟩ := trim_spec now (w.samples ++ [(now, hit)])
  refine ⟨hlength, gone ++ dropped, ?_, fun i r hr => ?_⟩
  · rw [List.append_assoc]
    show records ++ [(now, hit)] = gone ++ (dropped ++ ProbeWindow.trim now _)
    rw [← hsamples, hrecords, List.append_assoc]
  · have hlong : (records ++ [(now, hit)]).length =
        gone.length + (w.samples ++ [(now, hit)]).length := by
      rw [hrecords, List.append_assoc, List.length_append]
    rcases Nat.lt_or_ge i gone.length with hi | hi
    · rw [List.getElem?_append_left hi] at hr
      refine (hgone i r hr).imp ?_ fun hmany => ?_
      · rintro ⟨later, hlater, hold⟩
        exact ⟨later, List.mem_append_left _ hlater, hold⟩
      · rw [List.length_append]
        omega
    · rw [List.getElem?_append_right hi] at hr
      refine (hdropped _ r hr).imp (fun hold => ?_) fun hmany => by omega
      exact ⟨(now, hit), List.mem_append_right _ (List.mem_singleton_self _), hold⟩

theorem kept_run (calls : List Call) : Kept (sinceClear calls) (run calls) := by
  induction calls using List.reverseRecOn with
  | nil => exact kept_nil rfl
  | append_singleton calls call ih =>
    rw [sinceClear, run, List.foldl_concat, List.foldl_concat]
    cases call with
    | record now hit => exact kept_record ih now hit
    | clear => exact kept_nil rfl

/-- Of the latest records, those that are gone are too old for the history. -/
theorem latest_eq (h : Kept records w) :
    ∃ old, latest records = old ++ w.samples ∧
      ∀ r ∈ old, ∃ later ∈ records, PROBE_HISTORY < later.1 - r.1 := by
  obtain ⟨gone, hrecords, hgone⟩ := h.gone
  have hlong : records.length = gone.length + w.samples.length := by
    rw [hrecords, List.length_append]
  have hfew := h.few
  have hle : records.length - PROBE_HISTORY_MAX_SAMPLES ≤ gone.length := by omega
  refine ⟨gone.drop (records.length - PROBE_HISTORY_MAX_SAMPLES), ?_, fun r hr => ?_⟩
  · rw [latest, ← List.drop_append_of_le_length hle, ← hrecords]
  · obtain ⟨i, hi⟩ := List.mem_iff_getElem?.mp hr
    rw [List.getElem?_drop] at hi
    exact (hgone _ r hi).resolve_right fun hmany => by omega

/-- What is kept comes in the order of the records. -/
theorem samples_ordered {calls : List Call} (hordered : InOrder (sinceClear calls) now) :
    (run calls).samples.Pairwise fun a b => a.1 ≤ b.1 := by
  have hall := List.pairwise_map.mp (List.pairwise_append.mp hordered).1
  obtain ⟨gone, hsplit, -⟩ := (kept_run calls).gone
  rw [hsplit] at hall
  exact (List.pairwise_append.mp hall).2.1

/-- With a window that the history covers, and times that do not decrease: the probes and the
misses of at most that age, among the latest that are kept. -/
theorem counts_cover_window (calls : List Call) {now : Instant} {window : Nat}
    (hordered : InOrder (sinceClear calls) now) (hwindow : window ≤ PROBE_HISTORY) :
    counts (run calls) now window = within now window (latest (sinceClear calls)) := by
  have hbefore : ∀ r ∈ sinceClear calls, r.1 ≤ now := fun r hr =>
    (List.pairwise_append.mp hordered).2.2 r.1 (List.mem_map_of_mem hr) now
      (List.mem_singleton_self now)
  obtain ⟨old, hlatest, hold⟩ := latest_eq (kept_run calls)
  rw [counts_eq (samples_ordered hordered), hlatest, within_append]
  intro r hr
  obtain ⟨later, hlater, hage⟩ := hold r hr
  calc window ≤ PROBE_HISTORY := hwindow
    _ < later.1 - r.1 := hage
    _ ≤ now - r.1 := Nat.sub_le_sub_right (hbefore later hlater) r.1

/-- Three probes in five minutes, and a clear before them. -/
theorem counts_cover_window_default :
    counts (run [.record 0 false, .clear, .record 10 false, .record 200000000000 true,
        .record 300000000005 false]) 300000000011 300000000000 = (2, 1) :=
  counts_cover_window [.record 0 false, .clear, .record 10 false, .record 200000000000 true,
    .record 300000000005 false] (by decide +kernel) (by decide +kernel)

/-- Probes that are all recorded at one time. -/
def burst (n : Nat) : List Call := List.replicate n (.record 0 true)

theorem sinceClear_burst : sinceClear (burst n) = List.replicate n (0, true) := by
  induction n with
  | zero => rfl
  | succ n ih =>
    rw [burst, List.replicate_succ', List.replicate_succ', sinceClear, List.foldl_concat]
    exact congrArg (· ++ [(0, true)]) ih

theorem inOrder_burst : InOrder (sinceClear (burst n)) 0 := by
  rw [sinceClear_burst, InOrder, List.map_replicate, ← List.replicate_succ',
    List.pairwise_replicate]
  exact Or.inr (Nat.le_refl 0)

theorem within_burst (window : Nat) : (within 0 window (sinceClear (burst n))).1 = n := by
  rw [sinceClear_burst]
  refine (List.countP_eq_length.mpr fun r hr => ?_).trans List.length_replicate
  rw [List.eq_of_mem_replicate hr]
  exact decide_eq_true (Nat.zero_le window)

theorem counts_burst_le (window : Nat) :
    (counts (run (burst n)) 0 window).1 ≤ PROBE_HISTORY_MAX_SAMPLES := by
  rw [counts_eq (samples_ordered (inOrder_burst n))]
  exact Nat.le_trans List.countP_le_length (kept_run (burst n)).few

/-- A burst, with the default window: not all of its probes are counted.  And a window of ten
minutes: a miss from 400 seconds ago is within it and is not counted. -/
theorem counts_short_of_window :
    (InOrder (sinceClear (burst 16385)) 0 ∧
      (within 0 300000000000 (sinceClear (burst 16385))).1 = 16385 ∧
      (counts (run (burst 16385)) 0 300000000000).1 ≤ 16384) ∧
    InOrder (sinceClear [.record 0 false, .record 400000000000 true]) 400000000000 ∧
      within 400000000000 600000000000
        (sinceClear [.record 0 false, .record 400000000000 true]) = (2, 1) ∧
      counts (run [.record 0 false, .record 400000000000 true]) 400000000000 600000000000 =
        (1, 0) := by
  refine ⟨⟨inOrder_burst _, within_burst _ _, counts_burst_le _ _⟩, ?_⟩
  exact ⟨by decide +kernel, by decide +kernel, by decide +kernel⟩

end Mlvpn.Ports.LossWindow
