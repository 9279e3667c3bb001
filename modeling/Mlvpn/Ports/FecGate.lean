import Mathlib

/-!
# The gate on an open FEC group

Port of `tunnel::FecGate` and `FecMember`.  The owner holds a seal token from
the group's creation, each member holds one, and whoever drops the last token
emits the group: hands its parity to the ready channel, or counts the group as
unrecoverable when a member never reached the wire or the channel is full.

Each token is released by a task of its own.  An action lets one task perform
its next atomic operation (the store to `phantom`, the `fetch_sub`, the lock of
the group, the load of `phantom`, the `try_send`, the count), so a list of
actions is an interleaving.  `phantom` is written before the releasing
`fetch_sub` and read after the acquiring one that saw 1, so the operations may
be taken as sequentially consistent.

The gate never looks into the group, which is a parameter here.

## Main results

* `inv_step` — what every operation keeps.
* `group_resolved_once` — over every interleaving: handed over exactly once when
  all members were carried and the channel had room, else counted exactly once,
  and nothing before the seal and the last member.
-/

namespace Mlvpn.Ports.FecGate

variable {G : Type*}

/-! ## The model -/

/-- Where the task that drops a token is: `idle` before it starts, then
`release` and, for the last one, the operations of `emit`. -/
inductive Pc (G : Type*) where
  | idle
  | release
  | take
  | check (group : G)
  | send (group : G)
  | count
  | done
deriving Repr, DecidableEq

/-- A token's task; `carried` is `FecMember::carried`. -/
structure Task (G : Type*) where
  pc : Pc G
  carried : Bool
deriving Repr, DecidableEq

/-- The gate, the tasks that hold its tokens (the owner's seal token first), and
what went to the ready channel.  The count is shared with other gates: `others`
is their part of it.  `sealed` is the group the owner sealed the gate with, and
`refused` whether the channel was full; both are ghosts. -/
structure Gate (G : Type*) where
  outstanding : UInt32
  phantom : Bool
  group : Option G
  unrecoverable : UInt64
  ready : List G
  tasks : List (Task G)
  others : UInt64
  sealed : Option G
  refused : Bool
deriving Repr, DecidableEq

namespace Gate

/-- `FecGate::new`: the owner's token counts from the start. -/
def new (unrecoverable : UInt64) : Gate G where
  outstanding := 1
  phantom := false
  group := none
  unrecoverable := unrecoverable
  ready := []
  tasks := [{ pc := .idle, carried := true }]
  others := unrecoverable
  sealed := none
  refused := false

def setTask (s : Gate G) (i : Nat) (t : Task G) : Gate G := { s with tasks := s.tasks.set i t }

/-- One atomic operation of `release` or `emit`, for the task `t` at index `i`;
`room` is whether the ready channel has room. -/
def advance (s : Gate G) (i : Nat) (t : Task G) (room : Bool) : Gate G :=
  match t.pc with
  | .idle => s
  | .release =>
      { s with outstanding := s.outstanding - 1 }.setTask i
        { t with pc := if s.outstanding = 1 then .take else .done }
  | .take =>
      match s.group with
      | none => s.setTask i { t with pc := .done }
      | some group => { s with group := none }.setTask i { t with pc := .check group }
  | .check group => s.setTask i { t with pc := if s.phantom then .count else .send group }
  | .send group =>
      if room then { s with ready := s.ready ++ [group] }.setTask i { t with pc := .done }
      else { s with refused := true }.setTask i { t with pc := .count }
  | .count => { s with unrecoverable := s.unrecoverable + 1 }.setTask i { t with pc := .done }
  | .done => s

end Gate

inductive Action (G : Type*) where
  /-- The owner registers a member, before it seals the gate. -/
  | join
  | sealGate (group : G)
  /-- A worker reports member `i` carried, or drops it. -/
  | markCarried (i : Nat)
  | drop (i : Nat)
  /-- Task `i` performs its next operation. -/
  | advance (i : Nat) (room : Bool)
  /-- Another gate counts a group. -/
  | elsewhere
deriving Repr, DecidableEq

namespace Gate

def step (s : Gate G) : Action G → Gate G
  | .join =>
      match s.sealed with
      | none =>
          { s with outstanding := s.outstanding + 1
                   tasks := s.tasks ++ [{ pc := .idle, carried := false }] }
      | some _ => s
  | .sealGate group =>
      match s.sealed, s.tasks with
      | none, owner :: members =>
          { s with group := some group, sealed := some group
                   tasks := { owner with pc := .release } :: members }
      | _, _ => s
  | .markCarried i =>
      match s.tasks[i]? with
      | some { pc := .idle, carried := false } => s.setTask i { pc := .idle, carried := true }
      | _ => s
  | .drop i =>
      match i, s.tasks[i]? with
      | _ + 1, some { pc := .idle, carried } =>
          { s with phantom := s.phantom || !carried }.setTask i { pc := .release, carried }
      | _, _ => s
  | .advance i room =>
      match s.tasks[i]? with
      | some t => s.advance i t room
      | none => s
  | .elsewhere => { s with unrecoverable := s.unrecoverable + 1, others := s.others + 1 }

def run (s : Gate G) (actions : List (Action G)) : Gate G := actions.foldl step s

end Gate

/-- The members registered along a run. -/
def joins (actions : List (Action G)) : Nat :=
  actions.countP fun a => match a with
    | .join => true
    | _ => false

/-! ## The invariant -/

/-- The task has not given its token back. -/
def Task.holds (t : Task G) : Bool :=
  match t.pc with
  | .idle => true
  | .release => true
  | _ => false

/-- The tokens not yet given back. -/
def tokens (s : Gate G) : Nat := s.tasks.countP Task.holds

/-- What the emitting task knows at each of its operations. -/
def Emits (s : Gate G) : Pc G → Prop
  | .take => s.group = s.sealed ∧ s.refused = false
  | .check group => s.sealed = some group ∧ s.refused = false
  | .send group => s.sealed = some group ∧ s.phantom = false ∧ s.refused = false
  | .count => s.phantom = true ∨ s.refused = true
  | _ => False

/-- The group went to the channel, or it was counted. -/
def Outcome (s : Gate G) : Prop :=
  (∃ group, s.sealed = some group ∧ s.ready = [group] ∧ s.unrecoverable = s.others ∧
    s.phantom = false ∧ s.refused = false) ∨
  (s.ready = [] ∧ s.unrecoverable = s.others + 1 ∧ (s.phantom = true ∨ s.refused = true))

/-- How far the gate is: tokens are out, one task emits, or the group is resolved. -/
inductive Stage (s : Gate G) : Prop
  | waiting (htokens : 0 < tokens s)
      (hquiet : ∀ t ∈ s.tasks, t.holds = true ∨ t.pc = .done)
      (hgroup : s.group = s.sealed) (hready : s.ready = [])
      (hcount : s.unrecoverable = s.others) (hrefused : s.refused = false)
  | emitting (i : Nat) (t : Task G) (hi : s.tasks[i]? = some t)
      (hrest : ∀ j t', s.tasks[j]? = some t' → j ≠ i → t'.pc = .done)
      (hemits : Emits s t.pc) (hready : s.ready = []) (hcount : s.unrecoverable = s.others)
  | resolved (hdone : ∀ t ∈ s.tasks, t.pc = .done) (houtcome : Outcome s)

structure Inv (s : Gate G) : Prop where
  count : s.outstanding.toNat = tokens s
  owner : ∃ owner members, s.tasks = owner :: members ∧ owner.carried = true ∧
    (owner.pc = .idle ↔ s.sealed = none)
  phantom : s.phantom = true ↔ ∃ t ∈ s.tasks, t.pc ≠ .idle ∧ t.carried = false
  stage : Stage s

theorem inv_new (unrecoverable : UInt64) : Inv (Gate.new unrecoverable : Gate G) where
  count := rfl
  owner := ⟨_, _, rfl, rfl, by simp [Gate.new]⟩
  phantom := by simp [Gate.new]
  stage := Stage.waiting Nat.one_pos (by simp [Gate.new, Task.holds]) rfl rfl rfl rfl

/-! ## One task changes -/

section

variable {s : Gate G} {i : Nat} {t t' : Task G}

theorem countP_holds_set (hi : s.tasks[i]? = some t) (t' : Task G) :
    (s.tasks.set i t').countP Task.holds + t.holds.toNat = tokens s + t'.holds.toNat := by
  obtain ⟨hlt, hget⟩ := List.getElem?_eq_some_iff.1 hi
  have hset := List.countP_set (p := Task.holds) (a := t') hlt
  have hpos : t.holds = true → 0 < s.tasks.countP Task.holds := fun ht =>
    List.countP_pos_iff.2 ⟨t, hget ▸ List.getElem_mem hlt, ht⟩
  rw [hget] at hset
  rw [hset, tokens]
  cases ht : t.holds <;> cases t'.holds <;>
    simp only [Bool.false_eq_true, if_true, if_false, Bool.toNat_true, Bool.toNat_false]
  · rfl
  · rfl
  · have := hpos ht
    omega
  · have := hpos ht
    omega

/-- A task other than the one that changed is the one it was. -/
theorem getElem?_set_cases {j : Nat} {x : Task G} (hi : s.tasks[i]? = some t)
    (h : (s.tasks.set i t')[j]? = some x) : (j = i ∧ x = t') ∨ (j ≠ i ∧ s.tasks[j]? = some x) := by
  obtain ⟨hlt, -⟩ := List.getElem?_eq_some_iff.1 hi
  by_cases hji : j = i
  · subst hji
    rw [List.getElem?_set_self hlt] at h
    exact Or.inl ⟨rfl, (Option.some.inj h).symm⟩
  · rw [List.getElem?_set_ne (Ne.symm hji)] at h
    exact Or.inr ⟨hji, h⟩

theorem set_self (hi : s.tasks[i]? = some t) (t' : Task G) : (s.tasks.set i t')[i]? = some t' :=
  List.getElem?_set_self (List.getElem?_eq_some_iff.1 hi).1

/-- A dropped member that was not carried. -/
def Lost (t : Task G) : Prop := t.pc ≠ .idle ∧ t.carried = false

theorem exists_lost_set (hi : s.tasks[i]? = some t) (hmono : Lost t → Lost t') :
    (∃ x ∈ s.tasks.set i t', Lost x) ↔ (∃ x ∈ s.tasks, Lost x) ∨ Lost t' := by
  constructor
  · rintro ⟨x, hx, hlost⟩
    rcases List.mem_or_eq_of_mem_set hx with hx | rfl
    · exact Or.inl ⟨x, hx, hlost⟩
    · exact Or.inr hlost
  · rintro (⟨x, hx, hlost⟩ | hlost)
    · obtain ⟨j, hj⟩ := List.mem_iff_getElem?.1 hx
      by_cases hji : j = i
      · subst hji
        rw [hi] at hj
        obtain rfl := Option.some.inj hj
        exact ⟨t', List.mem_of_getElem? (set_self hi t'), hmono hlost⟩
      · refine ⟨x, List.mem_of_getElem? (i := j) ?_, hlost⟩
        rw [List.getElem?_set_ne (Ne.symm hji)]
        exact hj
    · exact ⟨t', List.mem_of_getElem? (set_self hi t'), hlost⟩

/-- The owner keeps its place when any task moves on. -/
theorem owner_set (hi : s.tasks[i]? = some t) (hpc : i = 0 → (t'.pc = .idle ↔ t.pc = .idle))
    (hcarried : i = 0 → t.carried = true → t'.carried = true)
    (h : ∃ owner members, s.tasks = owner :: members ∧ owner.carried = true ∧
      (owner.pc = .idle ↔ s.sealed = none)) :
    ∃ owner members, s.tasks.set i t' = owner :: members ∧ owner.carried = true ∧
      (owner.pc = .idle ↔ s.sealed = none) := by
  obtain ⟨owner, members, htasks, hown, hsealed⟩ := h
  rw [htasks] at hi ⊢
  cases i with
  | zero =>
    obtain rfl : owner = t := Option.some.inj hi
    exact ⟨t', members, rfl, hcarried rfl hown, (hpc rfl).trans hsealed⟩
  | succ i => exact ⟨owner, members.set i t', rfl, hown, hsealed⟩

end

/-! ## The operations of `release` and `emit` -/

section

variable {s : Gate G} {i : Nat} {t : Task G}

/-- Only the emitting task, if any, is past its release and not done. -/
theorem Stage.emits (h : Stage s) (hi : s.tasks[i]? = some t) (hholds : t.holds = false)
    (hdone : t.pc ≠ .done) :
    (∀ j t', s.tasks[j]? = some t' → j ≠ i → t'.pc = .done) ∧ Emits s t.pc ∧ s.ready = [] ∧
      s.unrecoverable = s.others := by
  cases h with
  | waiting htokens hquiet hgroup hready hcount hrefused =>
    rcases hquiet t (List.mem_of_getElem? hi) with hold | hd
    · rw [hholds] at hold
      exact absurd hold (by simp)
    · exact absurd hd hdone
  | emitting i0 t0 hi0 hrest hemits hready hcount =>
    by_cases hne : i = i0
    · subst hne
      rw [hi] at hi0
      obtain rfl := Option.some.inj hi0
      exact ⟨hrest, hemits, hready, hcount⟩
    · exact absurd (hrest i t hi hne) hdone
  | resolved hall houtcome => exact absurd (hall t (List.mem_of_getElem? hi)) hdone

/-- A task that has not given its token back says that tokens are out. -/
theorem Stage.waits (h : Stage s) (hi : s.tasks[i]? = some t) (hholds : t.holds = true) :
    (∀ t ∈ s.tasks, t.holds = true ∨ t.pc = .done) ∧ s.group = s.sealed ∧ s.ready = [] ∧
      s.unrecoverable = s.others ∧ s.refused = false := by
  have hnotdone : t.pc ≠ .done := by
    intro hd
    simp [Task.holds, hd] at hholds
  cases h with
  | waiting htokens hquiet hgroup hready hcount hrefused =>
    exact ⟨hquiet, hgroup, hready, hcount, hrefused⟩
  | emitting i0 t0 hi0 hrest hemits hready hcount =>
    by_cases hne : i = i0
    · subst hne
      rw [hi] at hi0
      obtain rfl := Option.some.inj hi0
      unfold Task.holds at hholds
      revert hemits hholds
      cases t.pc <;> simp [Emits]
    · exact absurd (hrest i t hi hne) hnotdone
  | resolved hall houtcome => exact absurd (hall t (List.mem_of_getElem? hi)) hnotdone

variable {s' : Gate G} {pc : Pc G}

/-- A task past its start moves on, and the stage is right again. -/
theorem Inv.moveOn (h : Inv s) (hi : s.tasks[i]? = some t)
    (htasks : s'.tasks = s.tasks.set i { t with pc }) (hstarted : t.pc ≠ .idle)
    (hpc : pc ≠ .idle) (hcount : s'.outstanding.toNat = tokens s') (hsealed : s'.sealed = s.sealed)
    (hphantom : s'.phantom = s.phantom) (hstage : Stage s') : Inv s' where
  count := hcount
  owner := by
    rw [htasks, hsealed]
    exact owner_set hi (fun _ => iff_of_false hpc hstarted) (fun _ hc => hc) h.owner
  phantom := by
    have hlost : Lost t ↔ Lost { t with pc } :=
      ⟨fun hl => ⟨hpc, hl.2⟩, fun hl => ⟨hstarted, hl.2⟩⟩
    rw [hphantom, htasks, h.phantom]
    refine Iff.trans ?_ (exists_lost_set hi hlost.1).symm
    refine ⟨Or.inl, ?_⟩
    rintro (hex | hl)
    · exact hex
    · exact ⟨t, List.mem_of_getElem? hi, hlost.2 hl⟩
  stage := hstage

theorem toNat_sub_one {n : UInt32} (h : 0 < n.toNat) : (n - 1).toNat = n.toNat - 1 := by
  have hle : (1 : UInt32) ≤ n := UInt32.le_iff_toNat_le.2 h
  rw [UInt32.toNat_sub_of_le _ _ hle]
  rfl

/-- `fetch_sub(1)`: the task that sees 1 goes on to emit. -/
theorem inv_release (h : Inv s) (hi : s.tasks[i]? = some t) (hpc : t.pc = .release)
    (room : Bool) : Inv (s.advance i t room) := by
  have hholds : t.holds = true := by simp [Task.holds, hpc]
  obtain ⟨hquiet, hgroup, hready, hcount, hrefused⟩ := h.stage.waits hi hholds
  have hpos : 0 < tokens s := List.countP_pos_iff.2 ⟨t, List.mem_of_getElem? hi, hholds⟩
  have hout := h.count
  have hsub := toNat_sub_one (n := s.outstanding) (by omega)
  have hstarted : t.pc ≠ .idle := by simp [hpc]
  have hset : ∀ pc : Pc G, ({ t with pc } : Task G).holds = false →
      (s.tasks.set i { t with pc }).countP Task.holds + 1 = tokens s := fun pc hfalse => by
    have hcounts := countP_holds_set hi ({ t with pc } : Task G)
    rw [hholds, hfalse] at hcounts
    exact hcounts
  simp only [Gate.advance, hpc]
  by_cases hlast : s.outstanding = 1
  · -- The last token: every other task has finished.
    have hone : s.outstanding.toNat = 1 := by rw [hlast]; rfl
    have hzero := hset .take rfl
    simp only [if_pos hlast]
    refine h.moveOn hi rfl hstarted (by simp) ?_ rfl rfl ?_
    · change (s.outstanding - 1).toNat = (s.tasks.set i { t with pc := .take }).countP Task.holds
      omega
    · refine Stage.emitting i { t with pc := .take } (set_self hi _) ?_ ⟨hgroup, hrefused⟩ hready
        hcount
      intro j x hj hne
      rcases getElem?_set_cases hi hj with ⟨heq, -⟩ | ⟨-, hold⟩
      · exact absurd heq hne
      · rcases hquiet x (List.mem_of_getElem? hold) with hx | hx
        · have hnone : (s.tasks.set i { t with pc := .take }).countP Task.holds = 0 := by omega
          exact absurd hx (List.countP_eq_zero.1 hnone x (List.mem_of_getElem? hj))
        · exact hx
  · have hmore : s.outstanding.toNat ≠ 1 := fun hone => hlast (UInt32.toNat_inj.1 hone)
    have hfewer := hset .done rfl
    simp only [if_neg hlast]
    refine h.moveOn hi rfl hstarted (by simp) ?_ rfl rfl ?_
    · change (s.outstanding - 1).toNat = (s.tasks.set i { t with pc := .done }).countP Task.holds
      omega
    · refine Stage.waiting ?_ ?_ hgroup hready hcount hrefused
      · change 0 < (s.tasks.set i { t with pc := .done }).countP Task.holds
        omega
      · intro x hx
        rcases List.mem_or_eq_of_mem_set hx with hx | rfl
        · exact hquiet x hx
        · exact Or.inr rfl

/-- The emitting task moves on; no token changes hands. -/
theorem Inv.emitOn (h : Inv s) (hi : s.tasks[i]? = some t) (hholds : t.holds = false)
    (htasks : s'.tasks = s.tasks.set i { t with pc }) (hpc : ({ t with pc } : Task G).holds = false)
    (houtstanding : s'.outstanding = s.outstanding) (hsealed : s'.sealed = s.sealed)
    (hphantom : s'.phantom = s.phantom) (hstage : Stage s') : Inv s' := by
  have hnotidle : ∀ x : Task G, x.holds = false → x.pc ≠ .idle := by
    intro x hx hidle
    simp [Task.holds, hidle] at hx
  refine h.moveOn hi htasks (hnotidle t hholds) (hnotidle _ hpc) ?_ hsealed hphantom hstage
  have hcounts := countP_holds_set hi ({ t with pc } : Task G)
  rw [hholds, hpc] at hcounts
  rw [houtstanding, h.count]
  change tokens s = s'.tasks.countP Task.holds
  rw [htasks]
  exact hcounts.symm

/-- The stage after an operation of the emitting task that does not end it. -/
theorem stage_emitting (hi : s.tasks[i]? = some t)
    (hrest : ∀ j t', s.tasks[j]? = some t' → j ≠ i → t'.pc = .done)
    (htasks : s'.tasks = s.tasks.set i { t with pc }) (hemits : Emits s' pc)
    (hready : s'.ready = []) (hcount : s'.unrecoverable = s'.others) : Stage s' := by
  refine Stage.emitting i { t with pc } (by rw [htasks]; exact set_self hi _) ?_
    hemits hready hcount
  intro j x hj hne
  rw [htasks] at hj
  rcases getElem?_set_cases hi hj with ⟨heq, -⟩ | ⟨-, hold⟩
  · exact absurd heq hne
  · exact hrest j x hold hne

/-- The stage after the emitting task's last operation. -/
theorem stage_resolved (hi : s.tasks[i]? = some t)
    (hrest : ∀ j t', s.tasks[j]? = some t' → j ≠ i → t'.pc = .done)
    (htasks : s'.tasks = s.tasks.set i { t with pc := .done }) (houtcome : Outcome s') :
    Stage s' := by
  refine Stage.resolved ?_ houtcome
  intro x hx
  rw [htasks] at hx
  obtain ⟨j, hj⟩ := List.mem_iff_getElem?.1 hx
  rcases getElem?_set_cases hi hj with ⟨-, rfl⟩ | ⟨hne, hold⟩
  · rfl
  · exact hrest j x hold hne

section

variable (h : Inv s)
include h

/-- Once a task emits, the gate has been sealed. -/
theorem Inv.sealed_of_emits (hi : s.tasks[i]? = some t) (hholds : t.holds = false)
    (hrest : ∀ j t', s.tasks[j]? = some t' → j ≠ i → t'.pc = .done) :
    ∃ group, s.sealed = some group := by
  obtain ⟨owner, members, htasks, -, hsealed⟩ := h.owner
  have howner : owner.pc ≠ .idle := by
    intro hidle
    have hget : s.tasks[0]? = some owner := by rw [htasks]; rfl
    by_cases hzero : 0 = i
    · subst hzero
      rw [hi] at hget
      obtain rfl := Option.some.inj hget
      simp [Task.holds, hidle] at hholds
    · have := hrest 0 owner hget hzero
      rw [hidle] at this
      cases this
  exact Option.ne_none_iff_exists'.1 fun hnone => howner (hsealed.2 hnone)

theorem inv_advance (hi : s.tasks[i]? = some t) (room : Bool) : Inv (s.advance i t room) := by
  cases hpc : t.pc with
  | idle => simpa only [Gate.advance, hpc] using h
  | done => simpa only [Gate.advance, hpc] using h
  | release => exact inv_release h hi hpc room
  | take =>
    have hholds : t.holds = false := by simp [Task.holds, hpc]
    obtain ⟨hrest, hemits, hready, hcount⟩ := h.stage.emits hi hholds (by simp [hpc])
    obtain ⟨group, hsealed⟩ := h.sealed_of_emits hi hholds hrest
    rw [hpc] at hemits
    have hgroup : s.group = some group := hemits.1.trans hsealed
    simp only [Gate.advance, hpc, hgroup]
    exact h.emitOn hi hholds rfl rfl rfl rfl rfl
      (stage_emitting hi hrest rfl ⟨hsealed, hemits.2⟩ hready hcount)
  | check group =>
    have hholds : t.holds = false := by simp [Task.holds, hpc]
    obtain ⟨hrest, hemits, hready, hcount⟩ := h.stage.emits hi hholds (by simp [hpc])
    rw [hpc] at hemits
    simp only [Gate.advance, hpc]
    cases hph : s.phantom with
    | true =>
      exact h.emitOn hi hholds rfl rfl rfl rfl rfl
        (stage_emitting hi hrest rfl (Or.inl hph) hready hcount)
    | false =>
      exact h.emitOn hi hholds rfl rfl rfl rfl rfl
        (stage_emitting hi hrest rfl ⟨hemits.1, hph, hemits.2⟩ hready hcount)
  | send group =>
    have hholds : t.holds = false := by simp [Task.holds, hpc]
    obtain ⟨hrest, hemits, hready, hcount⟩ := h.stage.emits hi hholds (by simp [hpc])
    rw [hpc] at hemits
    obtain ⟨hsealed, hph, hrefused⟩ := hemits
    simp only [Gate.advance, hpc]
    cases room with
    | true =>
      refine h.emitOn hi hholds rfl rfl rfl rfl rfl (stage_resolved hi hrest rfl ?_)
      refine Or.inl ⟨group, hsealed, ?_, hcount, hph, hrefused⟩
      change s.ready ++ [group] = [group]
      rw [hready, List.nil_append]
    | false =>
      exact h.emitOn hi hholds rfl rfl rfl rfl rfl
        (stage_emitting hi hrest rfl (Or.inr rfl) hready hcount)
  | count =>
    have hholds : t.holds = false := by simp [Task.holds, hpc]
    obtain ⟨hrest, hemits, hready, hcount⟩ := h.stage.emits hi hholds (by simp [hpc])
    rw [hpc] at hemits
    simp only [Gate.advance, hpc]
    refine h.emitOn hi hholds rfl rfl rfl rfl rfl (stage_resolved hi hrest rfl ?_)
    exact Or.inr ⟨hready, congrArg (· + 1) hcount, hemits⟩

/-! ## Joining, sealing and dropping -/

/-- Before the seal the owner's token is out, so nothing is emitted yet. -/
theorem Inv.unsealed (hsealed : s.sealed = none) :
    ∃ owner members, s.tasks = owner :: members ∧ owner = { pc := .idle, carried := true } := by
  obtain ⟨owner, members, htasks, hcarried, hidle⟩ := h.owner
  refine ⟨owner, members, htasks, ?_⟩
  obtain ⟨pc, carried⟩ := owner
  simp only at hcarried hidle
  rw [hcarried, hidle.2 hsealed]

theorem inv_join (hroom : tokens s + 1 < 2 ^ 32) : Inv (s.step .join) := by
  cases hsealed : s.sealed with
  | some group => simpa only [Gate.step, hsealed] using h
  | none =>
    obtain ⟨owner, members, htasks, howner⟩ := h.unsealed hsealed
    have hget : s.tasks[0]? = some owner := by rw [htasks]; rfl
    obtain ⟨hquiet, hgroup, hready, hcount, hrefused⟩ :=
      h.stage.waits hget (by rw [howner]; rfl)
    have hplus : (s.outstanding + 1).toNat = s.outstanding.toNat + 1 := by
      have := h.count
      rw [UInt32.toNat_add]
      exact Nat.mod_eq_of_lt (by simp only [UInt32.toNat_one]; omega)
    have htokens : (s.tasks ++ [({ pc := .idle, carried := false } : Task G)]).countP
        Task.holds = tokens s + 1 := by
      rw [List.countP_append]
      rfl
    simp only [Gate.step, hsealed]
    refine { count := ?_, owner := ?_, phantom := ?_, stage := ?_ }
    · exact (hplus.trans (congrArg (· + 1) h.count)).trans htokens.symm
    · refine ⟨owner, members ++ [{ pc := .idle, carried := false }], ?_, ?_, ?_⟩
      · rw [htasks, List.cons_append]
      · rw [howner]
      · rw [howner]
        exact iff_of_true rfl rfl
    · refine h.phantom.trans ⟨?_, ?_⟩
      · rintro ⟨x, hx, hlost⟩
        exact ⟨x, List.mem_append.2 (Or.inl hx), hlost⟩
      · rintro ⟨x, hx, hlost⟩
        rcases List.mem_append.1 hx with hx | hx
        · exact ⟨x, hx, hlost⟩
        · rw [List.mem_singleton.1 hx] at hlost
          exact absurd rfl hlost.1
    · refine Stage.waiting ?_ ?_ (hgroup.trans hsealed) hready hcount hrefused
      · change 0 < (s.tasks ++ [_]).countP Task.holds
        rw [htokens]
        exact Nat.succ_pos _
      · intro x hx
        rcases List.mem_append.1 hx with hx | hx
        · exact hquiet x hx
        · rw [List.mem_singleton.1 hx]
          exact Or.inl rfl

theorem inv_seal (group : G) : Inv (s.step (.sealGate group)) := by
  cases hsealed : s.sealed with
  | some g => simpa only [Gate.step, hsealed] using h
  | none =>
    obtain ⟨owner, members, htasks, howner⟩ := h.unsealed hsealed
    have hget : s.tasks[0]? = some owner := by rw [htasks]; rfl
    obtain ⟨hquiet, -, hready, hcount, hrefused⟩ := h.stage.waits hget (by rw [howner]; rfl)
    have hmembers : ∀ x ∈ members, x.holds = true ∨ x.pc = .done := fun x hx =>
      hquiet x (by rw [htasks]; exact List.mem_cons_of_mem _ hx)
    have hcounts : tokens s = members.countP Task.holds + 1 := by
      unfold tokens
      rw [htasks, howner]
      exact List.countP_cons_of_pos rfl
    have hsame : (({ owner with pc := .release } : Task G) :: members).countP Task.holds =
        tokens s := by
      rw [hcounts]
      exact List.countP_cons_of_pos rfl
    have hlost := h.phantom
    simp only [Gate.step, hsealed, htasks]
    refine { count := ?_, owner := ?_, phantom := ?_, stage := ?_ }
    · exact h.count.trans hsame.symm
    · exact ⟨_, _, rfl, by rw [howner], by simp⟩
    · rw [htasks, howner] at hlost
      rw [howner]
      simpa using hlost
    · refine Stage.waiting ?_ ?_ rfl hready hcount hrefused
      · change 0 < (({ owner with pc := .release } : Task G) :: members).countP Task.holds
        rw [hsame, hcounts]
        exact Nat.succ_pos _
      · intro x hx
        rcases List.mem_cons.1 hx with rfl | hx
        · exact Or.inl rfl
        · exact hmembers x hx

/-- An idle task changes and still holds its token. -/
theorem stage_holding (hi : s.tasks[i]? = some t) (hholds : t.holds = true)
    (s' : Gate G) {t' : Task G} (htasks : s'.tasks = s.tasks.set i t') (hholds' : t'.holds = true)
    (hgroup : s'.group = s.group) (hsealed : s'.sealed = s.sealed) (hready : s'.ready = s.ready)
    (hcount : s'.unrecoverable = s.unrecoverable) (hothers : s'.others = s.others)
    (hrefused : s'.refused = s.refused) : Stage s' ∧ tokens s' = tokens s := by
  obtain ⟨hquiet, hsame, hempty, hcounted, hunrefused⟩ := h.stage.waits hi hholds
  have hcounts := countP_holds_set hi t'
  rw [hholds, hholds', ← htasks] at hcounts
  have htokens : tokens s' = tokens s := Nat.add_right_cancel hcounts
  refine ⟨Stage.waiting ?_ ?_ ?_ ?_ ?_ ?_, htokens⟩
  · rw [htokens]
    exact List.countP_pos_iff.2 ⟨t, List.mem_of_getElem? hi, hholds⟩
  · intro x hx
    rw [htasks] at hx
    rcases List.mem_or_eq_of_mem_set hx with hx | rfl
    · exact hquiet x hx
    · exact Or.inl hholds'
  · rw [hgroup, hsealed, hsame]
  · rw [hready, hempty]
  · rw [hcount, hothers, hcounted]
  · rw [hrefused, hunrefused]

theorem inv_markCarried (i : Nat) : Inv (s.step (.markCarried i)) := by
  simp only [Gate.step]
  split
  · rename_i hi
    obtain ⟨hstage, htokens⟩ := stage_holding h hi rfl
      (s.setTask i { pc := .idle, carried := true }) rfl rfl rfl rfl rfl rfl rfl rfl
    refine { count := ?_, owner := ?_, phantom := ?_, stage := hstage }
    · exact h.count.trans htokens.symm
    · exact owner_set hi (fun _ => Iff.rfl) (fun _ _ => rfl) h.owner
    · refine h.phantom.trans (Iff.trans ?_ (exists_lost_set hi fun hl => absurd rfl hl.1).symm)
      refine ⟨Or.inl, ?_⟩
      rintro (hex | hl)
      · exact hex
      · exact absurd rfl hl.1
  · exact h

theorem inv_drop (i : Nat) : Inv (s.step (.drop i)) := by
  simp only [Gate.step]
  split
  · rename_i j carried hi
    obtain ⟨hstage, htokens⟩ := stage_holding h hi rfl
      ({ s with phantom := s.phantom || !carried }.setTask (j + 1) { pc := .release, carried })
      rfl rfl rfl rfl rfl rfl rfl rfl
    refine { count := ?_, owner := ?_, phantom := ?_, stage := hstage }
    · exact h.count.trans htokens.symm
    · exact owner_set hi (fun hzero => absurd hzero (Nat.succ_ne_zero j))
        (fun hzero => absurd hzero (Nat.succ_ne_zero j)) h.owner
    · -- The store to `phantom` and the member's own state say the same.
      refine Iff.trans ?_ (exists_lost_set hi fun hl => absurd rfl hl.1).symm
      change (s.phantom || !carried) = true ↔ _
      rw [Bool.or_eq_true, h.phantom]
      refine or_congr Iff.rfl ?_
      simp [Lost]
  · exact h

theorem inv_elsewhere : Inv (s.step .elsewhere) where
  count := h.count
  owner := h.owner
  phantom := h.phantom
  stage := by
    cases h.stage with
    | waiting htokens hquiet hgroup hready hcount hrefused =>
      exact Stage.waiting htokens hquiet hgroup hready (congrArg (· + 1) hcount) hrefused
    | emitting i t hi hrest hemits hready hcount =>
      refine Stage.emitting i t hi hrest ?_ hready (congrArg (· + 1) hcount)
      revert hemits
      cases t.pc <;> exact id
    | resolved hdone houtcome =>
      refine Stage.resolved hdone ?_
      rcases houtcome with ⟨group, hsealed, hready, hcount, hrest⟩ | ⟨hready, hcount, hwhy⟩
      · exact Or.inl ⟨group, hsealed, hready, congrArg (· + 1) hcount, hrest⟩
      · exact Or.inr ⟨hready, congrArg (· + 1) hcount, hwhy⟩

end

end

/-! ## Over a run -/

theorem advance_length (s : Gate G) (i : Nat) (t : Task G) (room : Bool) :
    (s.advance i t room).tasks.length = s.tasks.length := by
  unfold Gate.advance Gate.setTask
  cases t.pc with
  | idle => rfl
  | release => simp
  | take => cases s.group <;> simp
  | check group => simp
  | send group => cases room <;> simp
  | count => simp
  | done => rfl

theorem step_length (s : Gate G) (a : Action G) :
    (s.step a).tasks.length ≤ s.tasks.length + joins [a] := by
  cases a with
  | join =>
    simp only [Gate.step]
    split
    · simp [joins]
    · simp [joins]
  | sealGate group =>
    simp only [Gate.step]
    split
    · rename_i htasks
      simp [htasks]
    · exact Nat.le_add_right _ _
  | markCarried i =>
    simp only [Gate.step]
    split <;> simp [Gate.setTask]
  | drop i =>
    simp only [Gate.step]
    split <;> simp [Gate.setTask]
  | advance i room =>
    simp only [Gate.step]
    split
    · rw [advance_length]
      exact Nat.le_add_right _ _
    · exact Nat.le_add_right _ _
  | elsewhere => exact Nat.le_add_right _ _

variable {s : Gate G}

/-- Every operation keeps the invariant, as long as the tokens fit their counter. -/
theorem inv_step (h : Inv s) (a : Action G)
    (hroom : s.tasks.length + joins [a] < 2 ^ 32) : Inv (s.step a) := by
  cases a with
  | join =>
    have hle : tokens s ≤ s.tasks.length := List.countP_le_length
    have hone : joins [(.join : Action G)] = 1 := rfl
    exact inv_join h (by omega)
  | sealGate group => exact inv_seal h group
  | markCarried i => exact inv_markCarried h i
  | drop i => exact inv_drop h i
  | advance i room =>
    simp only [Gate.step]
    split
    · rename_i t hi
      exact inv_advance h hi room
    · exact h
  | elsewhere => exact inv_elsewhere h

theorem inv_run (h : Inv s) (actions : List (Action G))
    (hroom : s.tasks.length + joins actions < 2 ^ 32) : Inv (s.run actions) := by
  induction actions generalizing s with
  | nil => exact h
  | cons a actions ih =>
    have hsplit : joins ([a] ++ actions) = joins [a] + joins actions := List.countP_append
    rw [List.singleton_append] at hsplit
    have hlength := step_length s a
    exact ih (inv_step h a (by omega)) (by omega)

/-! ## No task waits for another -/

/-- The operations a started task has left, at most. -/
def rank : Pc G → Nat
  | .idle => 6
  | .release => 5
  | .take => 4
  | .check _ => 3
  | .send _ => 2
  | .count => 1
  | .done => 0

theorem advance_rank {i : Nat} {t : Task G} (hi : s.tasks[i]? = some t)
    (hstarted : t.pc ≠ .idle) (room : Bool) :
    ∃ t', (s.advance i t room).tasks[i]? = some t' ∧ t'.pc ≠ .idle ∧
      rank t'.pc ≤ rank t.pc - 1 := by
  have hset : ∀ (s' : Gate G) (pc : Pc G), s'.tasks = s.tasks → pc ≠ .idle →
      rank pc ≤ rank t.pc - 1 → ∃ t', (s'.setTask i { t with pc }).tasks[i]? = some t' ∧
        t'.pc ≠ .idle ∧ rank t'.pc ≤ rank t.pc - 1 := by
    intro s' pc htasks hpc hrank
    refine ⟨{ t with pc }, ?_, hpc, hrank⟩
    have hi' : s'.tasks[i]? = some t := by rw [htasks]; exact hi
    exact set_self hi' _
  unfold Gate.advance
  cases hpc : t.pc with
  | idle => exact absurd hpc hstarted
  | release =>
    rw [hpc] at hset
    refine hset _ _ rfl ?_ ?_ <;> split <;> simp [rank]
  | take =>
    rw [hpc] at hset
    cases s.group with
    | none => exact hset _ _ rfl (by simp) (by simp [rank])
    | some group => exact hset { s with group := none } _ rfl (by simp) (by simp [rank])
  | check group =>
    rw [hpc] at hset
    refine hset _ _ rfl ?_ ?_ <;> split <;> simp [rank]
  | send group =>
    rw [hpc] at hset
    cases room with
    | true =>
      exact hset { s with ready := s.ready ++ [group] } .done rfl (by simp) (by simp [rank])
    | false => exact hset { s with refused := true } .count rfl (by simp) (by simp [rank])
  | count =>
    rw [hpc] at hset
    exact hset { s with unrecoverable := s.unrecoverable + 1 } .done rfl
      (by simp) (by simp [rank])
  | done => exact ⟨t, hi, hstarted, by simp [hpc, rank]⟩

theorem run_rank {i : Nat} {t : Task G} (hi : s.tasks[i]? = some t)
    (hstarted : t.pc ≠ .idle) (room : Bool) (k : Nat) :
    ∃ t', (s.run (List.replicate k (.advance i room))).tasks[i]? = some t' ∧
      rank t'.pc ≤ rank t.pc - k := by
  induction k generalizing s t with
  | zero => exact ⟨t, hi, le_refl _⟩
  | succ k ih =>
    obtain ⟨t', hi', hstarted', hrank'⟩ := advance_rank hi hstarted room
    obtain ⟨t'', hi'', hrank''⟩ := ih hi' hstarted'
    refine ⟨t'', ?_, by omega⟩
    have hstep : s.step (.advance i room) = s.advance i t room := by simp only [Gate.step, hi]
    rw [List.replicate_succ]
    change ((s.step (.advance i room)).run _).tasks[i]? = some t''
    rw [hstep]
    exact hi''

/-! ## The fate of a group -/

/-- What the gate promises, in every state it can reach. -/
structure GroupFate (s : Gate G) : Prop where
  /-- Handed over only once, after the seal and after every member was resolved,
  and only if every member was carried. -/
  handed : s.ready ≠ [] → ∃ group, s.sealed = some group ∧ s.ready = [group] ∧
    (∀ t ∈ s.tasks, t.holds = false ∧ t.carried = true) ∧ s.unrecoverable = s.others
  /-- Counted at most once, and then not handed over. -/
  counted : s.unrecoverable ≠ s.others → s.unrecoverable = s.others + 1 ∧ s.ready = [] ∧
    s.sealed ≠ none ∧ ∀ t ∈ s.tasks, t.holds = false
  /-- When all tokens are back, handed over if every member was carried and the
  channel had room, and counted otherwise. -/
  resolved : (∀ t ∈ s.tasks, t.pc = .done) →
    ((∀ t ∈ s.tasks, t.carried = true) ∧ s.refused = false →
      ∃ group, s.sealed = some group ∧ s.ready = [group] ∧ s.unrecoverable = s.others) ∧
    (¬((∀ t ∈ s.tasks, t.carried = true) ∧ s.refused = false) →
      s.ready = [] ∧ s.unrecoverable = s.others + 1)
  /-- A drop or seal that has begun ends after five operations of its own. -/
  progress : ∀ i t room, s.tasks[i]? = some t → t.pc ≠ .idle →
    ∃ t', (s.run (List.replicate 5 (.advance i room))).tasks[i]? = some t' ∧ t'.pc = .done

section

variable {s : Gate G}

/-- When no task is idle, the phantom flag says whether a member was lost. -/
theorem Inv.carried_iff (h : Inv s) (hstarted : ∀ t ∈ s.tasks, t.pc ≠ .idle) :
    (∀ t ∈ s.tasks, t.carried = true) ↔ s.phantom = false := by
  rw [← Bool.not_eq_true, h.phantom]
  constructor
  · rintro hall ⟨t, ht, -, hlost⟩
    rw [hall t ht] at hlost
    exact absurd hlost (by simp)
  · intro hnone t ht
    by_contra hc
    exact hnone ⟨t, ht, hstarted t ht, Bool.eq_false_iff.2 hc⟩

theorem done_not_holds {t : Task G} (h : t.pc = .done) : t.holds = false := by
  simp [Task.holds, h]

theorem Inv.sealed_of_done (h : Inv s) (hdone : ∀ t ∈ s.tasks, t.pc = .done) : s.sealed ≠ none := by
  obtain ⟨owner, members, htasks, -, hsealed⟩ := h.owner
  intro hnone
  have howner := hdone owner (by rw [htasks]; exact List.mem_cons_self ..)
  rw [hsealed.2 hnone] at howner
  cases howner

theorem Inv.fate (h : Inv s) : GroupFate s := by
  have hprogress : ∀ i t room, s.tasks[i]? = some t → t.pc ≠ .idle →
      ∃ t', (s.run (List.replicate 5 (.advance i room))).tasks[i]? = some t' ∧ t'.pc = .done := by
    intro i t room hi hstarted
    obtain ⟨t', hi', hrank⟩ := run_rank hi hstarted room 5
    refine ⟨t', hi', ?_⟩
    have hzero : rank t'.pc = 0 := by
      revert hrank hstarted
      cases t.pc <;> simp [rank]
    revert hzero
    cases t'.pc <;> simp [rank]
  cases h.stage with
  | waiting htokens hquiet hgroup hready hcount hrefused =>
    refine { handed := fun hne => absurd hready hne, counted := fun hne => absurd hcount hne,
             resolved := fun hdone => ?_, progress := hprogress }
    obtain ⟨t, ht, hholds⟩ := List.countP_pos_iff.1 htokens
    rw [done_not_holds (hdone t ht)] at hholds
    exact absurd hholds (by simp)
  | emitting i t hi hrest hemits hready hcount =>
    refine { handed := fun hne => absurd hready hne, counted := fun hne => absurd hcount hne,
             resolved := fun hdone => ?_, progress := hprogress }
    rw [hdone t (List.mem_of_getElem? hi)] at hemits
    exact absurd hemits id
  | resolved hdone houtcome =>
    have hstarted : ∀ t ∈ s.tasks, t.pc ≠ .idle := fun t ht hidle => by
      have := hdone t ht
      rw [hidle] at this
      cases this
    have hcarried := h.carried_iff hstarted
    have hback : ∀ t ∈ s.tasks, t.holds = false := fun t ht => done_not_holds (hdone t ht)
    have hsealed := h.sealed_of_done hdone
    rcases houtcome with ⟨group, hgroup, hready, hcount, hph, hrefused⟩ | ⟨hready, hcount, hwhy⟩
    · have hall := hcarried.2 hph
      refine { handed := fun _ => ⟨group, hgroup, hready, fun t ht => ⟨hback t ht, hall t ht⟩,
                 hcount⟩
               counted := fun hne => absurd hcount hne
               resolved := fun _ => ⟨fun _ => ⟨group, hgroup, hready, hcount⟩,
                 fun hnot => absurd ⟨hall, hrefused⟩ hnot⟩
               progress := hprogress }
    · refine { handed := fun hne => absurd hready hne
               counted := fun _ => ⟨hcount, hready, hsealed, hback⟩
               resolved := fun _ => ⟨fun hgood => ?_, fun _ => ⟨hready, hcount⟩⟩
               progress := hprogress }
      obtain ⟨hall, hrefused⟩ := hgood
      rcases hwhy with hph | href
      · rw [hcarried.1 hall] at hph
        exact absurd hph (by simp)
      · rw [hrefused] at href
        exact absurd href (by simp)

end

/-- Over every interleaving of joins, marks, drops and the seal, a group is
resolved exactly once: handed to the ready channel if all its members were
carried and the channel had room, else counted.  The counter is 32 bits wide. -/
theorem group_resolved_once (unrecoverable : UInt64) (actions : List (Action G))
    (hjoins : joins actions < 2 ^ 32 - 1) :
    GroupFate ((Gate.new unrecoverable : Gate G).run actions) := by
  refine (inv_run (inv_new unrecoverable) actions ?_).fate
  have hone : (Gate.new unrecoverable : Gate G).tasks.length = 1 := rfl
  omega

/-- Two members, both carried: the second drop releases the group, after the
owner's seal and the first member. -/
theorem group_resolved_two_members :
    let actions : List (Action Nat) :=
      [.join, .join, .markCarried 1, .drop 1, .sealGate 7, .markCarried 2, .advance 0 true, .drop 2,
        .advance 1 true, .advance 2 true, .advance 2 true, .elsewhere, .advance 2 true,
        .advance 2 true]
    GroupFate ((Gate.new 3).run actions) ∧ ((Gate.new 3).run actions).ready = [7] ∧
      ((Gate.new 3).run actions).unrecoverable = 4 := by
  intro actions
  exact ⟨group_resolved_once 3 actions (by decide), by decide, by decide⟩

end Mlvpn.Ports.FecGate
