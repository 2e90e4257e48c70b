import Mathlib.Init

/-!
# Runs of a transition system

A system takes events one after the other; an event that is not enabled ends the run without a
state.
-/

namespace PolemoDB.Lib

open Option

universe u v

variable {σ : Type u} {ε : Type v} {step : σ → ε → Option σ}

/-- The state after the events, if each of them is enabled in its turn. -/
def runSteps (step : σ → ε → Option σ) : List ε → σ → Option σ
  | [], s => some s
  | e :: es, s => (step s e).bind (runSteps step es)

/-- **The invariant rule**: what every event preserves holds after every run. -/
theorem runSteps_invariant {inv : σ → Prop} (hstep : ∀ {s s' : σ} {e : ε}, inv s →
    step s e = some s' → inv s') (es : List ε) {s s' : σ} (h : inv s)
    (hrun : runSteps step es s = some s') : inv s' := by
  induction es generalizing s s' with
  | nil =>
    rw [runSteps, some.injEq] at hrun
    exact hrun ▸ h
  | cons e es ih =>
    rw [runSteps, bind_eq_some_iff] at hrun
    obtain ⟨s₁, he, hrest⟩ := hrun
    exact ih (hstep h he) hrest

/-- Each event of a run is `ok` in the state in which it happens. -/
def EventsOk (step : σ → ε → Option σ) (ok : σ → ε → Prop) : List ε → σ → Prop
  | [], _ => True
  | e :: es, s => ok s e ∧ (step s e).elim True (EventsOk step ok es)

instance EventsOk.decidable {ok : σ → ε → Prop} [∀ s e, Decidable (ok s e)] :
    ∀ (es : List ε) (s : σ), Decidable (EventsOk step ok es s)
  | [], _ => inferInstanceAs (Decidable True)
  | e :: es, s =>
    have : Decidable ((step s e).elim True (EventsOk step ok es)) :=
      match step s e with
      | none => inferInstanceAs (Decidable True)
      | some s' => EventsOk.decidable es s'
    inferInstanceAs (Decidable (ok s e ∧ (step s e).elim True (EventsOk step ok es)))

/-- The invariant rule for runs of which each event is `ok`. -/
theorem runSteps_invariant_of_ok {inv : σ → Prop} {ok : σ → ε → Prop}
    (hstep : ∀ {s s' : σ} {e : ε}, inv s → ok s e → step s e = some s' → inv s') (es : List ε)
    {s s' : σ} (hok : EventsOk step ok es s) (h : inv s) (hrun : runSteps step es s = some s') :
    inv s' := by
  induction es generalizing s s' with
  | nil =>
    rw [runSteps, some.injEq] at hrun
    exact hrun ▸ h
  | cons e es ih =>
    rw [runSteps, bind_eq_some_iff] at hrun
    obtain ⟨s₁, he, hrest⟩ := hrun
    have hok' := hok.2
    rw [he] at hok'
    exact ih hok' (hstep h hok.1 he) hrest

theorem runSteps_exists {P : σ → Prop} [DecidablePred P] {es : List ε} {s : σ}
    (h : (runSteps step es s).any (fun s' => decide (P s')) = true) :
    ∃ s', runSteps step es s = some s' ∧ P s' := by
  cases hrun : runSteps step es s with
  | none =>
    rw [hrun] at h
    cases h
  | some s' =>
    rw [hrun] at h
    exact ⟨s', rfl, of_decide_eq_true h⟩

theorem runSteps_append (es es' : List ε) : ∀ s : σ, runSteps step (es ++ es') s =
    (runSteps step es s).bind (runSteps step es') := by
  induction es with
  | nil => exact fun s => rfl
  | cons e es ih =>
    intro s
    rw [List.cons_append, runSteps, runSteps, bind_assoc]
    exact congrArg _ (funext ih)

theorem runSteps_concat (es : List ε) (e : ε) (s : σ) :
    runSteps step (es ++ [e]) s = (runSteps step es s).bind fun s' => step s' e := by
  rw [runSteps_append]
  exact congrArg _ (funext fun s' => bind_fun_some _)

/-- **What decides a property step by step decides it along a run**: if, in a good state, the next
state is good exactly if the event is `ok`, then all states of a run are good exactly if all its
events are. -/
theorem runSteps_good_iff {inv good : σ → Prop} {ok : σ → ε → Prop}
    (hinv : ∀ {s s' : σ} {e : ε}, inv s → step s e = some s' → inv s')
    (hgood : ∀ {s s' : σ} {e : ε}, inv s → good s → step s e = some s' → (good s' ↔ ok s e))
    (es : List ε) {s s' : σ} (hi : inv s) (hs : good s) (hrun : runSteps step es s = some s') :
    ((∀ pre post s₁, es = pre ++ post → runSteps step pre s = some s₁ → good s₁) ↔
        ∀ pre e post s₁, es = pre ++ e :: post → runSteps step pre s = some s₁ → ok s₁ e) := by
  induction es generalizing s s' with
  | nil =>
    refine iff_of_true (fun pre post s₁ hes hrun => ?_) fun pre e post s₁ hes =>
      absurd hes (by simp)
    obtain ⟨rfl, -⟩ := List.append_eq_nil_iff.1 hes.symm
    exact some.inj hrun ▸ hs
  | cons e es ih =>
    obtain ⟨s₂, hstep, hrest⟩ := bind_eq_some_iff.1 hrun
    have hcons : ∀ pre, runSteps step (e :: pre) s = runSteps step pre s₂ := fun pre => by
      rw [runSteps, hstep, bind_some]
    constructor
    · intro hall
      have hs₂ : good s₂ := hall [e] es s₂ rfl (by rw [hcons, runSteps])
      have hrest' := (ih (hinv hi hstep) hs₂ hrest).1 fun pre post s₁ hes hpre =>
        hall (e :: pre) post s₁ (by rw [hes, List.cons_append]) (by rw [hcons, hpre])
      intro pre e' post s₁ hes hpre
      cases pre with
      | nil =>
        obtain ⟨rfl, -⟩ := List.cons.inj hes
        exact some.inj hpre ▸ (hgood hi hs hstep).1 hs₂
      | cons a pre =>
        obtain ⟨rfl, htail⟩ := List.cons.inj hes
        exact hrest' pre e' post s₁ htail (by rw [← hcons, hpre])
    · intro hok
      have hs₂ : good s₂ := (hgood hi hs hstep).2 (hok [] e es s rfl rfl)
      have hrest' := (ih (hinv hi hstep) hs₂ hrest).2 fun pre e' post s₁ hes hpre =>
        hok (e :: pre) e' post s₁ (by rw [hes, List.cons_append]) (by rw [hcons, hpre])
      intro pre post s₁ hes hpre
      cases pre with
      | nil => exact some.inj hpre ▸ hs
      | cons a pre =>
        obtain ⟨rfl, htail⟩ := List.cons.inj hes
        exact hrest' pre post s₁ htail (by rw [← hcons, hpre])

/-- **One party of many takes a step**: what is found afterwards is the new state of that party, or
another party as it was. -/
theorem getElem?_set_cases {l : List σ} {i j : Nat} {a b : σ} (h : (l.set i a)[j]? = some b) :
    j = i ∧ b = a ∨ j ≠ i ∧ l[j]? = some b := by
  rw [List.getElem?_set] at h
  split at h
  next hij =>
    split at h <;> cases h
    exact .inl ⟨hij.symm, rfl⟩
  next hij => exact .inr ⟨Ne.symm hij, h⟩

end PolemoDB.Lib
