import Mathlib.Data.Finset.Disjoint
import Mathlib.Data.Finset.Lattice.Basic
import Mathlib.Data.List.Pairwise

/-!
# Classes given by disjoint sets

A list of pairwise disjoint finite sets, and the relation of sharing one of them.

* `transGen_iff_share` — it is the closure of a relation that it contains and that generates it.
-/

namespace PolemoDB.Lib

universe u

variable {κ : Type u}

/-- One of the sets has both elements. -/
def Share (l : List (Finset κ)) (a b : κ) : Prop := ∃ s ∈ l, a ∈ s ∧ b ∈ s

theorem share_append {l l' : List (Finset κ)} {a b : κ} : Share (l ++ l') a b ↔ Share l a b ∨
    Share l' a b := by
  simp only [Share, List.mem_append, or_and_right, exists_or]

theorem share_nil {a b : κ} : ¬ Share [] a b := by
  rintro ⟨s, hs, -⟩
  exact List.not_mem_nil hs

theorem covered_iff_share {l : List (Finset κ)} {a : κ} : (∃ s ∈ l, a ∈ s) ↔ Share l a a := by
  simp only [Share, and_self]

section Disjoint

variable {l : List (Finset κ)} (hl : l.Pairwise Disjoint)

include hl

theorem eq_of_mem_of_mem {s t : Finset κ} (hs : s ∈ l) (ht : t ∈ l) {a : κ} (has : a ∈ s)
    (hat : a ∈ t) : s = t := by
  by_contra hne
  have hdisjoint : Disjoint s t := hl.forall hs ht hne
  exact Finset.disjoint_left.mp hdisjoint has hat

theorem Share.trans {a b c : κ} (hab : Share l a b) (hbc : Share l b c) : Share l a c := by
  obtain ⟨s, hs, ha, hb⟩ := hab
  obtain ⟨t, ht, hb', hc⟩ := hbc
  have heq := eq_of_mem_of_mem hl ht hs hb' hb
  exact ⟨s, hs, ha, heq ▸ hc⟩

theorem transGen_iff_share {r : κ → κ → Prop} (hle : ∀ a b, r a b → Share l a b)
    (hge : ∀ a b, Share l a b → Relation.TransGen r a b) (a b : κ) : Share l a b ↔
    Relation.TransGen r a b := by
  refine ⟨hge a b, fun h => ?_⟩
  induction h with
  | single h => exact hle _ _ h
  | tail _ h ih => exact ih.trans hl (hle _ _ h)

theorem nodup_of_disjoint (hne : ∀ s ∈ l, s.Nonempty) : l.Nodup := by
  refine hl.imp_of_mem fun hs _ hdisjoint heq => ?_
  obtain ⟨a, ha⟩ := hne _ hs
  exact Finset.disjoint_left.mp hdisjoint ha (heq ▸ ha)

end Disjoint

end PolemoDB.Lib
