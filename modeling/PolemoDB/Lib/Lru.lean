import Mathlib.Data.List.Basic

/-!
# A table in the order of use

A cache keeps some pairs of a function, the most recently used one first.  What is found in it is a
value of the function, as long as the function only ever gains values.
-/

namespace PolemoDB.Lib

open List

universe u v

variable {κ : Type u} {ν : Type v} {t : List (κ × ν)} {f f' : κ → Option ν}

/-- Every pair in the table is one of the function. -/
def Caches (t : List (κ × ν)) (f : κ → Option ν) : Prop := ∀ e ∈ t, f e.1 = some e.2

/-- One function has all the values that another one has. -/
def Extends (f f' : κ → Option ν) : Prop := ∀ k v, f k = some v → f' k = some v

section Find

variable [DecidableEq κ]

/-- The value of a key. -/
def lruFind (k : κ) (t : List (κ × ν)) : Option ν :=
  (t.find? fun e => decide (e.1 = k)).map Prod.snd

/-- The entries with the key moved to the front. -/
def lruTouch (k : κ) (t : List (κ × ν)) : List (κ × ν) :=
  (t.filter fun e => decide (e.1 = k)) ++ t.filter fun e => !decide (e.1 = k)

theorem lruFind_eq_none_iff {k : κ} : lruFind k t = none ↔ ∀ e ∈ t, e.1 ≠ k := by
  unfold lruFind
  rw [Option.map_eq_none_iff, find?_eq_none]
  refine forall₂_congr fun e _ => ?_
  rw [decide_eq_true_eq]

theorem mem_lruTouch {k : κ} {e : κ × ν} : e ∈ lruTouch k t ↔ e ∈ t := by
  unfold lruTouch
  rw [mem_append, mem_filter, mem_filter, ← and_or_left]
  refine and_iff_left ?_
  cases decide (e.1 = k)
  · exact .inr rfl
  · exact .inl rfl

theorem length_lruTouch {k : κ} : (lruTouch k t).length = t.length := by
  exact (length_append).trans (length_eq_length_filter_add fun e : κ × ν => decide (e.1 = k)).symm

theorem Caches.find (h : Caches t f) {k : κ} {v : ν} (hf : lruFind k t = some v) :
    f k = some v := by
  unfold lruFind at hf
  rw [Option.map_eq_some_iff] at hf
  obtain ⟨e, hfind, rfl⟩ := hf
  have hd : decide (e.1 = k) = true := find?_some (p := fun e : κ × ν => decide (e.1 = k)) hfind
  have hk : e.1 = k := of_decide_eq_true hd
  exact hk ▸ h e (mem_of_find?_eq_some hfind)

theorem Caches.touch (h : Caches t f) (k : κ) : Caches (lruTouch k t) f := fun e he =>
    h e (mem_lruTouch.mp he)

end Find

namespace Caches

theorem nil : Caches ([] : List (κ × ν)) f := nofun

theorem dropLast (h : Caches t f) : Caches t.dropLast f := fun e he => h e (dropLast_subset t he)

theorem push (h : Caches t f) {k : κ} {v : ν} (hv : f k = some v) : Caches ((k, v) :: t) f :=
  forall_mem_cons.mpr ⟨hv, h⟩

theorem extend (h : Caches t f) (hf : Extends f f') : Caches t f' := fun e he => hf e.1 e.2 (h e he)

end Caches

end PolemoDB.Lib
