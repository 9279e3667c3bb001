import Mathlib

/-!
# Runs of deterministic machines with outputs

A component with a call interface is a step function `σ → ι → σ × ο`: a call
takes the state to the next one and returns an answer.  A run is a list of
calls; its log pairs each call with its answer.  Properties of whole runs are
proved from one step with the rules below, where the invariant may mention the
log so far and every call may be guarded by a condition on the state it finds.

## Main results

* `invariant_along` — a step that keeps `I` under the guard keeps it over a run
  whose every call meets the guard.
* `along_of_invariant` — what the invariant says of one call, over a run.
* `invariant_log` — the same without guards, for the answers as well.
* `along_iff`, `pairwise_log_iff` — guards and log relations at one call of a run.
* `log_append`, `run_append`, `along_append` — runs compose.
-/

namespace Mlvpn.Verified.Mealy

variable {σ ι ο : Type*} (step : σ → ι → σ × ο)

/-- The state after the calls `is`. -/
def run (s : σ) : List ι → σ
  | [] => s
  | i :: is => run (step s i).1 is

/-- The calls `is`, each with its answer. -/
def log (s : σ) : List ι → List (ι × ο)
  | [] => []
  | i :: is => (i, (step s i).2) :: log (step s i).1 is

/-- Every call of the run meets `G`, which may inspect the log before the call
and the state it finds. -/
def Along (G : List (ι × ο) → σ → ι → Prop) (h : List (ι × ο)) (s : σ) : List ι → Prop
  | [] => True
  | i :: is => G h s i ∧ Along G (h ++ [(i, (step s i).2)]) (step s i).1 is

instance decidableAlong (G : List (ι × ο) → σ → ι → Prop) [∀ h s i, Decidable (G h s i)]
    (h : List (ι × ο)) (s : σ) : (is : List ι) → Decidable (Along step G h s is)
  | [] => inferInstanceAs (Decidable True)
  | i :: is =>
      have := decidableAlong G (h ++ [(i, (step s i).2)]) (step s i).1 is
      inferInstanceAs
        (Decidable (G h s i ∧ Along step G (h ++ [(i, (step s i).2)]) (step s i).1 is))

/-- A machine that answers nothing. -/
abbrev silent (next : σ → ι → σ) (s : σ) (i : ι) : σ × Unit := (next s i, ())

variable (s : σ) (i : ι) (is js : List ι)

@[simp] theorem run_nil : run step s [] = s := rfl

@[simp] theorem run_cons : run step s (i :: is) = run step (step s i).1 is := rfl

@[simp] theorem log_nil : log step s [] = [] := rfl

@[simp] theorem log_cons : log step s (i :: is) = (i, (step s i).2) :: log step (step s i).1 is :=
  rfl

theorem run_append : run step s (is ++ js) = run step (run step s is) js := by
  induction is generalizing s with
  | nil => rfl
  | cons i is ih => exact ih _

theorem log_append : log step s (is ++ js) = log step s is ++ log step (run step s is) js := by
  induction is generalizing s with
  | nil => rfl
  | cons i is ih => simp [ih]

/-- A log without its answers. -/
theorem map_fst_log : (log step s is).map Prod.fst = is := by
  induction is generalizing s with
  | nil => rfl
  | cons i is ih => rw [log_cons, List.map_cons, ih]

variable {step}

variable {I : List (ι × ο) → σ → Prop} {G : List (ι × ο) → σ → ι → Prop}

theorem along_append {h : List (ι × ο)} {s : σ} {is js : List ι} :
    Along step G h s (is ++ js) ↔
      Along step G h s is ∧ Along step G (h ++ log step s is) (run step s is) js := by
  induction is generalizing h s with
  | nil => simp [Along]
  | cons i is ih => simp [Along, ih, and_assoc]

/-- The induction behind every run property: what one guarded call preserves, a
run of guarded calls preserves. -/
theorem invariant_along
    (hstep : ∀ h s i, I h s → G h s i → I (h ++ [(i, (step s i).2)]) (step s i).1)
    {h : List (ι × ο)} {s : σ} {is : List ι} (hI : I h s) (hG : Along step G h s is) :
    I (h ++ log step s is) (run step s is) := by
  induction is generalizing h s with
  | nil => simpa using hI
  | cons i is ih =>
    have hnext := ih (hstep h s i hI hG.1) hG.2
    simpa using hnext

/-- A guarded run, call by call: each call with the run before it. -/
theorem along_iff {h : List (ι × ο)} {s : σ} {is : List ι} :
    Along step G h s is ↔ ∀ pre i post, is = pre ++ i :: post →
      G (h ++ log step s pre) (run step s pre) i := by
  constructor
  · rintro hG pre i post rfl
    exact (along_append.1 hG).2.1
  · intro hG
    induction is generalizing h s with
    | nil => trivial
    | cons i is ih =>
      refine ⟨by simpa using hG [] i is rfl, ih fun pre j post hsplit => ?_⟩
      have hnext := hG (i :: pre) j post (by rw [hsplit, List.cons_append])
      simpa using hnext

/-- A relation between earlier and later entries of a log, call by call. -/
theorem pairwise_log_iff {R : ι × ο → ι × ο → Prop} {s : σ} {is : List ι} :
    (log step s is).Pairwise R ↔ ∀ pre i post, is = pre ++ i :: post →
      ∀ e ∈ log step s pre, R e (i, (step (run step s pre) i).2) := by
  constructor
  · rintro hR pre i post rfl e he
    rw [log_append, List.pairwise_append] at hR
    exact hR.2.2 e he _ (by simp)
  · intro hR
    induction is using List.reverseRecOn with
    | nil => exact List.Pairwise.nil
    | append_singleton is i ih =>
      rw [log_append, List.pairwise_append]
      refine ⟨ih fun pre j post hsplit => hR pre j (post ++ [i]) (by simp [hsplit]), by simp, ?_⟩
      intro e he e' he'
      rw [List.mem_singleton.1 he']
      exact hR is i [] rfl e he

theorem along_and {G' : List (ι × ο) → σ → ι → Prop} {h : List (ι × ο)} {s : σ} {is : List ι}
    (hG : Along step G h s is) (hG' : Along step G' h s is) :
    Along step (fun h s i => G h s i ∧ G' h s i) h s is := by
  induction is generalizing h s with
  | nil => trivial
  | cons i is ih => exact ⟨⟨hG.1, hG'.1⟩, ih hG.2 hG'.2⟩

/-- A condition on states that holds before every call of a run holds after
every call but the last. -/
theorem along_next {F : List (ι × ο) → σ → Prop} (hF : ∀ h s i, G h s i → F h s) {h : List (ι × ο)}
    {s : σ} {is : List ι} {j : ι} (hG : Along step G h s (is ++ [j])) :
    Along step (fun h s i => G h s i ∧ F (h ++ [(i, (step s i).2)]) (step s i).1) h s is := by
  induction is generalizing h s with
  | nil => trivial
  | cons i is ih =>
    refine ⟨⟨hG.1, ?_⟩, ih hG.2⟩
    cases is with
    | nil => exact hF _ _ j hG.2.1
    | cons k is => exact hF _ _ k hG.2.1

/-- A guard that holds of every call outright holds along the run. -/
theorem along_of_forall {P : ι → Prop} (hG : ∀ h s i, P i → G h s i) {h : List (ι × ο)} {s : σ}
    {is : List ι} (hok : ∀ i ∈ is, P i) : Along step G h s is := by
  induction is generalizing h s with
  | nil => trivial
  | cons i is ih =>
    exact ⟨hG h s i (hok i (by simp)), ih fun j hj => hok j (by simp [hj])⟩

/-- What the invariant says of a guarded call holds of every call of a guarded run. -/
theorem along_of_invariant {P : List (ι × ο) → σ → ι → Prop}
    (hstep : ∀ h s i, I h s → G h s i → I (h ++ [(i, (step s i).2)]) (step s i).1)
    (hP : ∀ h s i, I h s → G h s i → P h s i) {h : List (ι × ο)} {s : σ} {is : List ι} (hI : I h s)
    (hG : Along step G h s is) : Along step P h s is := by
  induction is generalizing h s with
  | nil => trivial
  | cons i is ih => exact ⟨hP h s i hI hG.1, ih (hstep h s i hI hG.1) hG.2⟩

/-- Calls that are in order are in order along the run. -/
theorem along_of_pairwise {R : ι → ι → Prop} (s : σ) {is : List ι} (hR : is.Pairwise R) :
    Along step (fun h _ i => ∀ e ∈ h, R e.1 i) [] s is := by
  refine along_iff.mpr fun pre i post hsplit e he => ?_
  rw [List.nil_append] at he
  rw [hsplit, List.pairwise_append] at hR
  refine hR.2.2 e.1 ?_ i (List.mem_cons_self ..)
  rw [← map_fst_log step s pre]
  exact List.mem_map_of_mem he

/-- Runs without a guard on the state: calls that are fine in themselves keep
`I` and get answers in `P`. -/
theorem invariant_log {I : σ → Prop} {ok : ι → Prop} {P : ι → ο → Prop}
    (hstep : ∀ s i, I s → ok i → I (step s i).1 ∧ P i (step s i).2) {s : σ} {is : List ι} (hI : I s)
    (hok : ∀ i ∈ is, ok i) : I (run step s is) ∧ ∀ r ∈ log step s is, P r.1 r.2 := by
  induction is generalizing s with
  | nil => exact ⟨hI, by simp⟩
  | cons i is ih =>
    obtain ⟨hnext, hanswer⟩ := hstep s i hI (hok i (by simp))
    obtain ⟨hrun, hlog⟩ := ih hnext fun j hj => hok j (by simp [hj])
    refine ⟨hrun, fun r hr => ?_⟩
    rcases List.mem_cons.1 hr with rfl | hr
    · exact hanswer
    · exact hlog r hr

/-- Two machines on the same states, fed related calls: if related calls move both to one
state and get related answers, whole runs do. -/
theorem lockstep {ι' ο' : Type*} {step' : σ → ι' → σ × ο'} {R : ι → ι' → Prop} {Q : ο → ο' → Prop}
    (hstep : ∀ s i i', R i i' → (step s i).1 = (step' s i').1 ∧ Q (step s i).2 (step' s i').2)
    {is : List ι} {is' : List ι'} (his : List.Forall₂ R is is') (s : σ) :
    run step s is = run step' s is' ∧
      List.Forall₂ (fun r r' => Q r.2 r'.2) (log step s is) (log step' s is') := by
  induction his generalizing s with
  | nil => exact ⟨rfl, .nil⟩
  | cons hi _ ih =>
    obtain ⟨hstate, hanswer⟩ := hstep s _ _ hi
    obtain ⟨hrun, hlog⟩ := ih (step s _).1
    rw [run_cons, run_cons, log_cons, log_cons, ← hstate]
    exact ⟨hrun, .cons hanswer hlog⟩

end Mlvpn.Verified.Mealy
