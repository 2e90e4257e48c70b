import Mathlib.Data.Set.Lattice
import Mathlib.Order.Preorder.Finite

/-!
# Greatest consistent subsets

Elements of a set may need support from other elements of the set.  A set is consistent when each
of its elements is supported by the set itself; for monotone support the consistent subsets of `E`
have a greatest one, `core sup E`.

* `core_eq_of_removed` — dropping elements that the current set does not support never changes the
  core, so any order of such removals ends in the same set.
* `core_inter` — restricting before or after taking the core is the same.
-/

namespace PolemoDB.Lib

variable {α : Type}

/-- Every element is supported by the set. -/
def Consistent (sup : Set α → α → Prop) (S : Set α) : Prop := ∀ e ∈ S, sup S e

def MonotoneSupport (sup : Set α → α → Prop) : Prop := ∀ ⦃S T : Set α⦄, S ⊆ T → ∀ e, sup S e →
    sup T e

/-- The union of the consistent subsets of `E`. -/
def core (sup : Set α → α → Prop) (E : Set α) : Set α := ⋃₀ {S | S ⊆ E ∧ Consistent sup S}

section Core

variable {sup : Set α → α → Prop} {E F A : Set α}

theorem core_subset : core sup E ⊆ E := by
  rintro e ⟨S, ⟨hS, -⟩, he⟩
  exact hS he

theorem subset_core {S : Set α} (h : S ⊆ E) (hc : Consistent sup S) : S ⊆ core sup E :=
  fun _ he => ⟨S, ⟨h, hc⟩, he⟩

theorem core_consistent (hm : MonotoneSupport sup) : Consistent sup (core sup E) := by
  rintro e ⟨S, ⟨hS, hc⟩, he⟩
  exact hm (subset_core hS hc) e (hc e he)

theorem core_isGreatest (hm : MonotoneSupport sup) :
    IsGreatest {S | S ⊆ E ∧ Consistent sup S} (core sup E) :=
  ⟨⟨core_subset, core_consistent hm⟩, fun _ hS => subset_core hS.1 hS.2⟩

theorem core_mono (h : E ⊆ F) : core sup E ⊆ core sup F := by
  rintro e ⟨S, ⟨hS, hc⟩, he⟩
  exact ⟨S, ⟨hS.trans h, hc⟩, he⟩

theorem core_of_consistent (hc : Consistent sup E) : core sup E = E :=
  Set.Subset.antisymm core_subset (subset_core (Set.Subset.refl E) hc)

theorem core_eq_of_removed (hm : MonotoneSupport sup) (hF : F ⊆ E)
    (hr : ∀ e ∈ E, e ∉ F → ¬ sup E e) : core sup F = core sup E := by
  refine Set.Subset.antisymm (core_mono hF) (subset_core ?_ (core_consistent hm))
  intro e he
  by_contra hn
  exact hr e (core_subset he) hn (hm core_subset e (core_consistent hm e he))

theorem core_inter (hm : MonotoneSupport sup) : core sup (core sup E ∩ A) = core sup (E ∩ A) := by
  refine Set.Subset.antisymm (core_mono (Set.inter_subset_inter_left A core_subset)) ?_
  refine subset_core ?_ (core_consistent hm)
  intro e he
  exact ⟨core_mono Set.inter_subset_left he, (core_subset he).2⟩

end Core

/-! ## Cycles -/

theorem transGen_of_walk {r : α → α → Prop} {f : Nat → α} (h : ∀ n, r (f n) (f (n + 1)))
    (i k : Nat) : Relation.TransGen r (f i) (f (i + k + 1)) := by
  induction k with
  | zero => exact .single (h i)
  | succ k ih => exact ih.tail (h (i + k + 1))

/-- **A walk that never has to stop in a finite set reaches a cycle.** -/
theorem exists_cycle_of_serial {r : α → α → Prop} {V : Set α} (hfin : V.Finite)
    (hser : ∀ x ∈ V, ∃ y ∈ V, r x y) {x : α} (hx : x ∈ V) :
    ∃ y ∈ V, Relation.ReflTransGen r x y ∧ Relation.TransGen r y y := by
  choose! next hV hr using hser
  have hwV : ∀ n, next^[n] x ∈ V := by
    intro n
    induction n with
    | zero => exact hx
    | succ n ih => rw [Function.iterate_succ_apply']; exact hV _ ih
  have hstep : ∀ n, r (next^[n] x) (next^[n + 1] x) := by
    intro n
    rw [Function.iterate_succ_apply']
    exact hr _ (hwV n)
  have hreach : ∀ n, Relation.ReflTransGen r x (next^[n] x) := by
    intro n
    induction n with
    | zero => exact .refl
    | succ n ih => exact ih.tail (hstep n)
  obtain ⟨i, j, hlt, heq⟩ := hfin.exists_lt_map_eq_of_forall_mem hwV
  refine ⟨next^[i] x, hwV i, hreach i, ?_⟩
  have hc := transGen_of_walk (f := fun n => next^[n] x) hstep i (j - i - 1)
  rw [show i + (j - i - 1) + 1 = j by omega, ← heq] at hc
  exact hc

end PolemoDB.Lib
