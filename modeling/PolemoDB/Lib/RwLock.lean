import Mathlib.Data.List.GetD

/-!
# A lock that is held shared or exclusive

The parties are a list, and each one's state says how it holds the lock.  A party that holds it
exclusive is the only one that holds it.
-/

namespace PolemoDB.Lib

open List

universe u

/-- How a party holds the lock. -/
inductive LockMode
  | free
  | shared
  | exclusive
  deriving DecidableEq, Repr

variable {σ : Type u} (mode : σ → LockMode) {l : List σ} {t t' : σ} {i : Nat}

/-- The lock can be taken shared. -/
def canShare (l : List σ) : Bool := l.all fun t => decide (mode t ≠ .exclusive)

/-- The lock can be taken exclusive. -/
def canExclude (l : List σ) : Bool := l.all fun t => decide (mode t = .free)

/-- Nobody else holds the lock while a party holds it exclusive. -/
def LockHeld (l : List σ) : Prop :=
  ∀ (i j : Nat) t u, l[i]? = some t → l[j]? = some u → i ≠ j → mode t = .exclusive → mode u = .free

variable {mode}

theorem LockHeld.of_free (h : ∀ t ∈ l, mode t = .free) : LockHeld mode l := by
  intro i j t u ht hu _ hexcl
  rw [h t (mem_of_getElem? ht)] at hexcl
  cases hexcl

theorem LockHeld.set (h : LockHeld mode l) (hi : l[i]? = some t)
    (ht : mode t' = .free ∨ mode t' = mode t ∨ (mode t' = .shared ∧ canShare mode l = true) ∨
    canExclude mode l = true) : LockHeld mode (l.set i t') := by
  intro j k a b hj hk hjk hexcl
  rw [getElem?_set] at hj hk
  have hlen : i < l.length := (List.getElem?_eq_some_iff.mp hi).1
  by_cases hij : i = j
  · have hik : i ≠ k := fun heq => hjk (hij.symm.trans heq)
    rw [if_pos hij, if_pos hlen] at hj
    rw [if_neg hik] at hk
    obtain rfl := Option.some.inj hj
    -- the party that changed is the one that holds the lock exclusive
    rcases ht with hfree | hsame | ⟨hshared, -⟩ | hcan
    · rw [hfree] at hexcl
      cases hexcl
    · exact h i k t b hi hk hik (hsame.symm.trans hexcl)
    · rw [hshared] at hexcl
      cases hexcl
    · exact of_decide_eq_true (all_eq_true.mp hcan b (mem_of_getElem? hk))
  · rw [if_neg hij] at hj
    by_cases hik : i = k
    · rw [if_pos hik, if_pos hlen] at hk
      obtain rfl := Option.some.inj hk
      rcases ht with hfree | hsame | ⟨-, hcan⟩ | hcan
      · exact hfree
      · exact hsame.trans (h j i a t hj hi (fun heq => hij heq.symm) hexcl)
      · exact absurd hexcl (of_decide_eq_true (all_eq_true.mp hcan a (mem_of_getElem? hj)))
      have hfree : mode a = .free :=
        of_decide_eq_true (all_eq_true.mp hcan a (mem_of_getElem? hj))
      rw [hfree] at hexcl
      cases hexcl
    · rw [if_neg hik] at hk
      exact h j k a b hj hk hjk hexcl

theorem canShare_set (h : canShare mode l = true) (ht : mode t' ≠ .exclusive) (i : Nat) :
    canShare mode (l.set i t') = true := by
  refine all_eq_true.mpr fun a ha => decide_eq_true ?_
  rcases mem_or_eq_of_mem_set ha with ha | rfl
  · exact of_decide_eq_true (all_eq_true.mp h a ha)
  · exact ht

end PolemoDB.Lib
