import Mathlib.Tactic.Ring
import PolemoDB.Lib.Transition

/-!
# Resource group slots on a segment (`utils/resgroup/resgroup.c`)

The executor processes of a session share one slot. The first that is switched to a group takes the
slot and counts it in `nRunning` of the group, the last that leaves gives it back and takes it out
of the count.

* `unassignResGroup`, `switchResGroupOnSegment` and `handleMoveResourceGroup` — what a process does
  under `ResGroupLock`. `none` is the dereference of a null pointer. Assertions are not checked, as
  in a production build: a process may join a slot of another group, as after an interrupted move.

A process can have another group than the slot: it has not handled a move of the slot, or it was
switched to another group. If it is the last one to leave, it takes the slot out of the wrong count.
All other steps keep the counts: `nRunning_exact_iff`.
-/

namespace PolemoDB.Resgroup

open PolemoDB.Lib Option

universe u

/-- `ResGroupSlotData` of a slot that is in use. -/
structure ResGroupSlot (γ : Type u) where
  groupId : γ
  nProcs : ℕ
deriving DecidableEq

/-- An executor process: its session, the group of `self`, and whether it is in bypass mode. -/
structure Executor (γ : Type u) where
  session : ℕ
  group : Option γ
  bypassed : Bool
deriving DecidableEq

/-- A segment: `resGroupSlot` of each session, the processes, and `nRunning` of each group. -/
structure Segment (γ : Type u) where
  slots : List (Option (ResGroupSlot γ))
  procs : List (Executor γ)
  nRunning : γ → ℤ

section

variable {γ : Type u} [DecidableEq γ] (s : Segment γ)

/-- `nRunning` of one group changes. -/
def addRunning (nRunning : γ → ℤ) (group : γ) (d : ℤ) : γ → ℤ := fun g =>
    if g = group then nRunning g + d else nRunning g

/-- `UnassignResGroup`. -/
def unassignResGroup (i : ℕ) : Option (Segment γ) :=
  match s.procs[i]? with
  | none => none
  | some p =>
    if p.bypassed then some { s with procs := s.procs.set i { p with bypassed := false } }
    else
      match p.group with
      | none => some s
      | some group =>
        match s.slots[p.session]? with
        | some (some slot) =>
          let procs := s.procs.set i { p with group := none }
          if slot.nProcs - 1 = 0 then
            -- `groupReleaseSlot` and `sessionResetSlot`
            some ⟨s.slots.set p.session none, procs, addRunning s.nRunning group (-1)⟩
          else some ⟨s.slots.set p.session (some { slot with nProcs := slot.nProcs - 1 }), procs,
            s.nRunning⟩
        | _ => none

/-- The second half of `SwitchResGroupOnSegment`, for a process that has no group. -/
def attachResGroup (i : ℕ) (group : γ) : Option (Segment γ) :=
  match s.procs[i]? with
  | none => none
  | some p =>
    let procs := s.procs.set i { p with group := some group }
    match s.slots[p.session]? with
    | none => none
    | some none => some ⟨s.slots.set p.session (some ⟨group, 1⟩), procs,
      addRunning s.nRunning group 1⟩
    | some (some slot) =>
      some ⟨s.slots.set p.session (some { slot with nProcs := slot.nProcs + 1 }), procs, s.nRunning⟩

/-- `self->groupId` of a process. -/
def groupOf (i : ℕ) : Option γ := s.procs[i]?.bind (·.group)

/-- `SwitchResGroupOnSegment`, with the group that was dispatched. -/
def switchResGroupOnSegment (i : ℕ) : Option γ → Option (Segment γ)
  | none => unassignResGroup s i
  | some newGroupId =>
    (if groupOf s i = some newGroupId then some s else unassignResGroup s i).bind fun s =>
      match groupOf s i with
      | some _ => some s
      | none => attachResGroup s i newGroupId

/-- The executor branch of `HandleMoveResourceGroup`. -/
def handleMoveResourceGroup (i : ℕ) (groupId : γ) : Option (Segment γ) :=
  match s.procs[i]? with
  | none => none
  | some p =>
    if p.group = none then some s
    else
      let procs := s.procs.set i { p with group := some groupId }
      match s.slots[p.session]? with
      | some (some slot) =>
        if slot.groupId = groupId then some { s with procs := procs }
        else
          some ⟨s.slots.set p.session (some { slot with groupId := groupId }), procs,
            addRunning (addRunning s.nRunning slot.groupId (-1)) groupId 1⟩
      | _ => none

/-- What a process does next; `bypass` is a switch in bypass mode. -/
inductive Event (γ : Type u) where
  | unassign (i : ℕ)
  | bypass (i : ℕ)
  | switch (i : ℕ) (newGroupId : Option γ)
  | move (i : ℕ) (groupId : γ)

def step : Event γ → Option (Segment γ)
  | .unassign i => unassignResGroup s i
  | .bypass i => s.procs[i]?.map fun p =>
    { s with procs := s.procs.set i { p with bypassed := true } }
  | .switch i newGroupId => switchResGroupOnSegment s i newGroupId
  | .move i groupId => handleMoveResourceGroup s i groupId

/-! ## The counts -/

/-- The slots in use with the group. -/
def inUse (slots : List (Option (ResGroupSlot γ))) (g : γ) : ℕ := slots.countP fun o =>
    o.map (·.groupId) = some g

/-- One slot in the count of a group. -/
def counts (o : Option (ResGroupSlot γ)) (g : γ) : ℤ := if o.map (·.groupId) = some g then 1 else 0

/-- Every group counts its slots. -/
def Counted : Prop := ∀ g, s.nRunning g = inUse s.slots g

variable {s s' : Segment γ} {i : ℕ}

theorem inUse_set (slots : List (Option (ResGroupSlot γ))) (g : γ) (o' : Option (ResGroupSlot γ)) :
    ∀ {k : ℕ} {o : Option (ResGroupSlot γ)}, slots[k]? = some o →
      (inUse (slots.set k o') g : ℤ) = inUse slots g - counts o g + counts o' g := by
  induction slots with
  | nil => intro k o h; cases h
  | cons a slots ih =>
    intro k o h
    cases k with
    | zero =>
      obtain rfl : a = o := by simpa using h
      simp only [inUse, counts, List.set_cons_zero, List.countP_cons, decide_eq_true_eq]
      split_ifs <;> push_cast <;> omega
    | succ k =>
      have htail := ih (k := k) (o := o) (by simpa using h)
      simp only [inUse, List.set_cons_succ, List.countP_cons] at htail ⊢
      omega

theorem counted_set {k : ℕ} {o o' : Option (ResGroupSlot γ)} (hk : s.slots[k]? = some o)
    {procs : List (Executor γ)} {nRunning : γ → ℤ}
    (hn : ∀ g, nRunning g = s.nRunning g - counts o g + counts o' g) :
    Counted ⟨s.slots.set k o', procs, nRunning⟩ ↔ Counted s := by
  refine forall_congr' fun g => ?_
  dsimp only
  rw [hn g, inUse_set s.slots g o' hk]
  omega

theorem attach_counted {group : γ} (h : attachResGroup s i group = some s') : Counted s' ↔
    Counted s := by
  unfold attachResGroup at h
  split at h
  · cases h
  split at h
  · cases h
  · next hk =>
    obtain rfl := some.inj h
    refine counted_set hk fun g => ?_
    by_cases hg : g = group
    · simp [addRunning, counts, hg]
    · simp [addRunning, counts, hg, Ne.symm hg]
  · next slot hk =>
    obtain rfl := some.inj h
    refine counted_set hk fun g => ?_
    simp [counts]

theorem move_counted {groupId : γ} (h : handleMoveResourceGroup s i groupId = some s') :
    Counted s' ↔ Counted s := by
  unfold handleMoveResourceGroup at h
  split at h
  · cases h
  split at h
  · rw [← some.inj h]
  split at h
  · next slot hk =>
    split at h
    · rw [← some.inj h]
      exact Iff.rfl
    next hne =>
    obtain rfl := some.inj h
    refine counted_set hk fun g => ?_
    simp only [addRunning, counts, map_some, some.injEq, @eq_comm _ g]
    split_ifs <;> omega
  · cases h

/-- The process leaves its group as the last of its session, and the slot has another group. -/
def StaleRelease (s : Segment γ) (i : ℕ) : Prop :=
  ∃ p group slot, s.procs[i]? = some p ∧ p.bypassed = false ∧ p.group = some group ∧
    s.slots[p.session]? = some (some slot) ∧ slot.nProcs - 1 = 0 ∧ slot.groupId ≠ group

theorem unassign_counted (hs : Counted s) (h : unassignResGroup s i = some s') :
    Counted s' ↔ ¬ StaleRelease s i := by
  unfold unassignResGroup at h
  split at h
  · cases h
  next p hp =>
  have hproc : ∀ {p'}, s.procs[i]? = some p' → p = p' := fun hp' => some.inj (hp.symm.trans hp')
  split at h
  · next hbypass =>
    rw [← some.inj h]
    refine iff_of_true hs ?_
    rintro ⟨p', group, slot, hp', hb, -⟩
    rw [← hproc hp', hbypass] at hb
    cases hb
  next hbypass =>
  split at h
  · next hgroup =>
    rw [← some.inj h]
    refine iff_of_true hs ?_
    rintro ⟨p', group, slot, hp', -, hg, -⟩
    rw [← hproc hp', hgroup] at hg
    cases hg
  next group hgroup =>
  split at h
  · next slot hk =>
    split at h
    · next hlast =>
      obtain rfl := some.inj h
      have hstale : StaleRelease s i ↔ slot.groupId ≠ group := by
        constructor
        · rintro ⟨p', group', slot', hp', -, hg, hk', -, hne⟩
          obtain rfl := hproc hp'
          obtain rfl := some.inj (hgroup.symm.trans hg)
          obtain rfl := some.inj (some.inj (hk.symm.trans hk'))
          exact hne
        · exact fun hne =>
            ⟨p, group, slot, hp, by simpa using hbypass, hgroup, hk, hlast, hne⟩
      rw [hstale, not_not]
      constructor
      · intro hcounted
        by_contra hne
        have hcount := hcounted slot.groupId
        dsimp only at hcount
        rw [inUse_set s.slots slot.groupId none hk, addRunning, if_neg hne, hs slot.groupId]
          at hcount
        simp only [counts, map_some, map_none, if_true, reduceCtorEq, if_false] at hcount
        omega
      · rintro rfl
        refine (counted_set hk fun g => ?_).mpr hs
        simp only [addRunning, counts, map_some, map_none, some.injEq, @eq_comm _ g,
          reduceCtorEq, if_false]
        split_ifs <;> omega
    · next hlast =>
      obtain rfl := some.inj h
      refine iff_of_true ((counted_set hk fun g => by simp [counts]).mpr hs) ?_
      rintro ⟨p', group', slot', hp', -, -, hk', hlast', -⟩
      obtain rfl := hproc hp'
      obtain rfl := some.inj (some.inj (hk.symm.trans hk'))
      exact hlast hlast'
  · cases h

/-- The step is one in which a process leaves a group that the slot is not in, as the last one. -/
def StaleStep (s : Segment γ) : Event γ → Prop
  | .unassign i => StaleRelease s i
  | .switch i none => StaleRelease s i
  | .switch i (some newGroupId) => groupOf s i ≠ some newGroupId ∧ StaleRelease s i
  | .bypass _ => False
  | .move _ _ => False

theorem step_counted {e : Event γ} (hs : Counted s) (h : step s e = some s') :
    Counted s' ↔ ¬ StaleStep s e := by
  cases e with
  | unassign i => exact unassign_counted hs h
  | bypass i =>
    obtain ⟨p, -, rfl⟩ := map_eq_some_iff.mp h
    exact iff_of_true hs not_false
  | move i groupId => exact iff_of_true ((move_counted h).mpr hs) not_false
  | switch i newGroupId =>
    cases newGroupId with
    | none => exact unassign_counted hs h
    | some newGroupId =>
      obtain ⟨s₁, hleave, hattach⟩ := bind_eq_some_iff.mp h
      have hsame : Counted s' ↔ Counted s₁ := by
        split at hattach
        · rw [← some.inj hattach]
        · exact attach_counted hattach
      rw [hsame]
      split at hleave
      · next hgroup =>
        rw [← some.inj hleave]
        exact iff_of_true hs fun hstale => hstale.1 hgroup
      · next hgroup =>
        exact (unassign_counted hs hleave).trans (not_congr (and_iff_right hgroup).symm)

/-! ## All runs -/

/-- A segment at its start: sessions without slots and processes without groups. -/
def start (sessions : ℕ) (procs : List ℕ) : Segment γ :=
  ⟨List.replicate sessions none, procs.map fun session => ⟨session, none, false⟩, fun _ => 0⟩

theorem inUse_start (sessions : ℕ) (g : γ) : inUse (List.replicate sessions none) g = 0 := by
  simp [inUse, List.countP_replicate]

/-- **`nRunning` on a segment**: in all states of a run every group counts its slots in use, and is
never negative, exactly if no process leaves as the last of its session with another group than the
slot. -/
theorem nRunning_exact_iff (sessions : ℕ) (procs : List ℕ) (es : List (Event γ))
    (hrun : runSteps step es (start sessions procs) = some s) :
    (∀ pre post s₁, es = pre ++ post → runSteps step pre (start sessions procs) = some s₁ →
        ∀ g, s₁.nRunning g = inUse s₁.slots g ∧ 0 ≤ s₁.nRunning g) ↔
      ∀ pre e post s₁, es = pre ++ e :: post → runSteps step pre (start sessions procs) = some s₁ →
        ¬ StaleStep s₁ e := by
  have hstart : Counted (start sessions procs : Segment γ) := fun g => by
    show (0 : ℤ) = inUse (List.replicate sessions none) g
    rw [inUse_start]
    rfl
  have hgood := @runSteps_good_iff (Segment γ) (Event γ) step (fun _ => True) Counted
    (fun s e => ¬ StaleStep s e) (fun _ _ => trivial) (fun _ hs h => step_counted hs h) es _ s
    trivial hstart hrun
  rw [← hgood]
  refine forall₄_congr fun pre post s₁ _ => imp_congr_right fun _ => forall_congr' fun g => ?_
  exact and_iff_left_of_imp fun hg => hg ▸ Int.natCast_nonneg _

end

/-- Two executors of a session in group 1; one of them handles a move to group 2, and both leave. -/
def movedOnce : List (Event ℕ) :=
  [.switch 0 (some 1), .switch 1 (some 1), .move 0 2, .unassign 1, .unassign 0]

theorem nRunning_exact_movedOnce : ∃ s, runSteps step movedOnce (start 1 [0, 0]) = some s ∧
      ((∀ pre post s₁, movedOnce = pre ++ post → runSteps step pre (start 1 [0, 0]) = some s₁ →
        ∀ g, s₁.nRunning g = inUse s₁.slots g ∧ 0 ≤ s₁.nRunning g) ↔
      ∀ pre e post s₁, movedOnce = pre ++ e :: post → runSteps step pre (start 1 [0, 0]) = some s₁ →
        ¬ StaleStep s₁ e) :=
  ⟨_, rfl, nRunning_exact_iff 1 [0, 0] movedOnce rfl⟩

/-- **A process that leaves before it handles the move**: it is the last one, takes the slot out of
the count of group 1, which becomes negative, and group 2 counts a slot that is free. Without any
move the counts go wrong if one of the processes is switched to group 2 while the other has the
slot. -/
theorem nRunning_negative :
    (∃ s, runSteps step [.switch 0 (some 1), .switch 1 (some 1), .move 0 2, .unassign 0,
        .unassign 1] (start 1 [0, 0]) = some s ∧
      s.nRunning 1 = -1 ∧ s.nRunning 2 = 1 ∧ inUse s.slots 1 = 0 ∧ inUse s.slots 2 = 0) ∧
    ∃ s, runSteps step [.switch 0 (some 1), .switch 1 (some 1), .switch 0 (some 2), .unassign 1,
        .unassign 0] (start 1 [0, 0]) = some s ∧
      s.nRunning 1 = 1 ∧ s.nRunning 2 = -1 ∧ inUse s.slots 1 = 0 ∧ inUse s.slots 2 = 0 :=
  ⟨⟨_, rfl, rfl, rfl, rfl, rfl⟩, _, rfl, rfl, rfl, rfl, rfl⟩

end PolemoDB.Resgroup
