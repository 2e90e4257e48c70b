import Mathlib.Init

/-!
# Loops with a fuel bound

`loop body n s` runs `body` from state `s` for at most `n` rounds: `.inl` goes on with the next
state, `.inr` leaves the loop with a result, `none` is a round that did not finish.  `none` as the
result says that `n` rounds were not enough.

* `loop_terminates` — total correctness from an invariant and a decreasing measure, with the number
  of rounds it takes.
-/

namespace PolemoDB.Lib

theorem ok_bind {ε α β : Type} (a : α) (f : α → Except ε β) : (Except.ok a >>= f) = f a := rfl

variable {σ ρ : Type}

/-- Run `body` for at most `n` rounds. -/
def loop (body : σ → Option (σ ⊕ ρ)) : Nat → σ → Option ρ
  | 0, _ => none
  | n + 1, s =>
    match body s with
    | none => none
    | some (.inl s') => loop body n s'
    | some (.inr r) => some r

variable {body : σ → Option (σ ⊕ ρ)}

theorem loop_inl {s s' : σ} (h : body s = some (.inl s')) (n : Nat) :
    loop body (n + 1) s = loop body n s' := by
  simp only [loop, h]

theorem loop_inr {s : σ} {r : ρ} (h : body s = some (.inr r)) (n : Nat) :
    loop body (n + 1) s = some r := by
  simp only [loop, h]

theorem loop_some {s : σ} {r : ρ} {n : Nat} (h : loop body n s = some r) :
    ∃ k, n = k + 1 ∧ ((∃ s', body s = some (.inl s') ∧ loop body k s' = some r) ∨
      body s = some (.inr r)) := by
  cases n with
  | zero => cases h
  | succ k =>
    refine ⟨k, rfl, ?_⟩
    cases hb : body s with
    | none => simp only [loop, hb] at h; cases h
    | some x =>
      cases x with
      | inl s' => rw [loop_inl hb] at h; exact .inl ⟨s', rfl, h⟩
      | inr r' => rw [loop_inr hb] at h; exact .inr (congrArg _ (congrArg _ (Option.some.inj h)))

theorem loop_mono {s : σ} {r : ρ} {n m : Nat} (h : loop body n s = some r) (hnm : n ≤ m) :
    loop body m s = some r := by
  induction n generalizing s m with
  | zero => cases h
  | succ n ih =>
    obtain ⟨m, rfl⟩ : ∃ k, m = k + 1 := ⟨m - 1, by omega⟩
    obtain ⟨k, hk, hcase⟩ := loop_some h
    cases hk
    rcases hcase with ⟨s', hb, h'⟩ | hb
    · rw [loop_inl hb]
      exact ih h' (by omega)
    · exact loop_inr hb m

/-- **Total correctness.**  Each round keeps the invariant and decreases the measure, or leaves the
loop with the postcondition. -/
theorem loop_terminates (body : σ → Option (σ ⊕ ρ)) (Inv : σ → Prop) (Post : ρ → Prop) (m : σ → Nat)
    (hstep : ∀ s, Inv s → (∃ s', body s = some (.inl s') ∧ Inv s' ∧ m s' < m s) ∨
      ∃ r, body s = some (.inr r) ∧ Post r) (n : Nat) (s : σ) (hs : Inv s) (hn : m s < n) :
    ∃ r, loop body n s = some r ∧ Post r := by
  induction n generalizing s with
  | zero => omega
  | succ n ih =>
    rcases hstep s hs with ⟨s', hb, hs', hm⟩ | ⟨r, hb, hr⟩
    · rw [loop_inl hb]
      exact ih s' hs' (by omega)
    · exact ⟨r, loop_inr hb n, hr⟩

/-- **Partial correctness.**  A property of states that every round carries backwards from its
result holds at the start of every finished run. -/
theorem loop_sound (body : σ → Option (σ ⊕ ρ)) (P : σ → ρ → Prop)
    (hinl : ∀ s s' r, body s = some (.inl s') → P s' r → P s r)
    (hinr : ∀ s r, body s = some (.inr r) → P s r) :
    ∀ (n : Nat) (s : σ) (r : ρ), loop body n s = some r → P s r := by
  intro n
  induction n with
  | zero => intro s r h; cases h
  | succ n ih =>
    intro s r h
    obtain ⟨k, hk, hcase⟩ := loop_some h
    cases hk
    rcases hcase with ⟨s', hb, h'⟩ | hb
    · exact hinl s s' r hb (ih s' r h')
    · exact hinr s r hb

/-- **A relation along a loop**: each round, also the last one, goes to a related state and keeps
the invariant. -/
theorem loop_relates {body : σ → Option (σ ⊕ σ)} {I : σ → Prop} {R : σ → σ → Prop}
    (htrans : ∀ {a b c}, R a b → R b c → R a c)
    (hround : ∀ s, I s → ∃ x, (body s = some (.inl x) ∨ body s = some (.inr x)) ∧ I x ∧ R s x)
    {n : Nat} {s r : σ} (hs : I s) (h : loop body n s = some r) : I r ∧ R s r := by
  refine loop_sound body (fun s r => I s → I r ∧ R s r) (fun s s' r hb ih hs => ?_)
    (fun s r hb hs => ?_) n s r h hs
  · obtain ⟨x, hx, hinv, hr⟩ := hround s hs
    obtain rfl : s' = x := by simpa [hb] using hx
    exact ⟨(ih hinv).1, htrans hr (ih hinv).2⟩
  · obtain ⟨x, hx, h⟩ := hround s hs
    obtain rfl : r = x := by simpa [hb] using hx
    exact h

end PolemoDB.Lib
