import Mathlib.Data.Prod.Lex
import Mathlib.Order.WithBot
import Mathlib.Order.MinMax
import Mathlib.Data.List.Chain

/-!
# Ranges between cuts of a linear order

A cut of a linear order lies just before or just after a value, or at one of the two ends. A range
with included, excluded or missing bounds is a pair of cuts, and contains a value if the cut before
the value is at or after its lower cut and before its upper one. Lists of ranges are canonical if
every range is between a smaller and a greater cut and every range ends strictly before the next
one starts, so that no two of them overlap or touch. Lists of ranges that meet, each starting where
the one before it ends, divide what lies between their two ends.
-/

namespace PolemoDB.Lib

open List

universe u v

/-! ## Cuts -/

/-- A cut: the two ends, and for each value the cut before it (`false`) and after it (`true`). -/
abbrev Cut (α : Type u) := WithBot (WithTop (α ×ₗ Bool))

section Cuts

variable {α : Type u} [LinearOrder α]

def Cut.before (x : α) : Cut α := ((toLex (x, false) : α ×ₗ Bool) : WithTop (α ×ₗ Bool))

def Cut.after (x : α) : Cut α := ((toLex (x, true) : α ×ₗ Bool) : WithTop (α ×ₗ Bool))

open Cut

variable (x y : α)

theorem Cut.coe_lt_coe_iff (a b : Bool) :
    ((((toLex (x, a) : α ×ₗ Bool) : WithTop (α ×ₗ Bool)) : Cut α) <
      ((toLex (y, b) : α ×ₗ Bool) : WithTop (α ×ₗ Bool))) ↔ x < y ∨ (x = y ∧ a < b) := by
  rw [WithBot.coe_lt_coe, WithTop.coe_lt_coe, Prod.Lex.toLex_lt_toLex]

@[simp] theorem Cut.before_lt_before : before x < before y ↔ x < y := by
  rw [before, before, coe_lt_coe_iff]
  simp

@[simp] theorem Cut.after_lt_after : after x < after y ↔ x < y := by
  rw [after, after, coe_lt_coe_iff]
  simp

@[simp] theorem Cut.before_lt_after : before x < after y ↔ x ≤ y := by
  rw [before, after, coe_lt_coe_iff, le_iff_lt_or_eq]
  simp

@[simp] theorem Cut.after_lt_before : after x < before y ↔ x < y := by
  rw [before, after, coe_lt_coe_iff]
  simp

@[simp] theorem Cut.bot_lt_before (x : α) : (⊥ : Cut α) < before x := WithBot.bot_lt_coe _

@[simp] theorem Cut.bot_lt_after (x : α) : (⊥ : Cut α) < after x := WithBot.bot_lt_coe _

@[simp] theorem Cut.before_lt_top (x : α) : before x < (⊤ : Cut α) :=
  WithBot.coe_lt_coe.2 (WithTop.coe_lt_top _)

@[simp] theorem Cut.after_lt_top (x : α) : after x < (⊤ : Cut α) :=
  WithBot.coe_lt_coe.2 (WithTop.coe_lt_top _)

@[simp] theorem Cut.before_le_before : before x ≤ before y ↔ x ≤ y := by
  rw [← not_lt, before_lt_before, not_lt]

@[simp] theorem Cut.after_le_after : after x ≤ after y ↔ x ≤ y := by
  rw [← not_lt, after_lt_after, not_lt]

@[simp] theorem Cut.before_le_after : before x ≤ after y ↔ x ≤ y := by
  rw [← not_lt, after_lt_before, not_lt]

@[simp] theorem Cut.after_le_before : after x ≤ before y ↔ x < y := by
  rw [← not_lt, before_lt_after, not_le]

@[simp] theorem Cut.before_ne_top (x : α) : before x ≠ ⊤ := (before_lt_top x).ne

@[simp] theorem Cut.after_ne_top (x : α) : after x ≠ ⊤ := (after_lt_top x).ne

@[simp] theorem Cut.before_ne_bot (x : α) : before x ≠ ⊥ := (bot_lt_before x).ne'

@[simp] theorem Cut.after_ne_bot (x : α) : after x ≠ ⊥ := (bot_lt_after x).ne'

end Cuts

/-! ## Canonical lists of ranges -/

section Lists

variable {R : Type u} {C : Type v} [LinearOrder C] {lo hi : R → C}

/-- The cut lies in the range. -/
def InRange (lo hi : R → C) (r : R) (c : C) : Prop := lo r ≤ c ∧ c < hi r

/-- The cut lies in one of the ranges. -/
def InRanges (lo hi : R → C) (l : List R) (c : C) : Prop := ∃ r ∈ l, InRange lo hi r c

/-- No range is empty, and each ends strictly before the next starts. -/
structure Canonical (lo hi : R → C) (l : List R) : Prop where
  nonempty : ∀ r ∈ l, lo r < hi r
  apart : l.Pairwise fun r s => hi r < lo s

@[simp] theorem inRanges_nil (c : C) : InRanges lo hi [] c ↔ False := by simp [InRanges]

@[simp] theorem inRanges_cons (r : R) (l : List R) (c : C) :
    InRanges lo hi (r :: l) c ↔ InRange lo hi r c ∨ InRanges lo hi l c := by
  simp [InRanges]

@[simp] theorem inRanges_append (l l' : List R) (c : C) :
    InRanges lo hi (l ++ l') c ↔ InRanges lo hi l c ∨ InRanges lo hi l' c := by
  simp [InRanges, or_and_right, exists_or]

variable {r : R} {l : List R} {a b : C}

theorem Canonical.hi_lt {s : R} (h : Canonical lo hi (r :: l)) (hs : s ∈ l) : hi r < lo s :=
  rel_of_pairwise_cons h.apart hs

theorem Canonical.hi_lt_of_inRanges (h : Canonical lo hi (r :: l)) {c : C}
    (hc : InRanges lo hi l c) : hi r < c := by
  obtain ⟨s, hs, hlo, -⟩ := hc
  exact (h.hi_lt hs).trans_le hlo

theorem Canonical.append (h : Canonical lo hi l) (hr : lo r < hi r)
    (hlt : ∀ s ∈ l, hi s < lo r) : Canonical lo hi (l ++ [r]) := by
  refine ⟨forall_mem_append.2 ⟨h.nonempty, forall_mem_singleton.2 hr⟩,
    pairwise_append.2 ⟨h.apart, pairwise_singleton _ _, fun s hs => ?_⟩⟩
  exact forall_mem_singleton.2 (hlt s hs)

theorem Canonical.extend {p q : R} (h : Canonical lo hi (l ++ [p])) (hlo : lo q = lo p)
    (hhi : hi p ≤ hi q) : Canonical lo hi (l ++ [q]) := by
  have hpair := pairwise_append.1 h.apart
  have hl : Canonical lo hi l := ⟨fun s hs => h.nonempty s (mem_append_left _ hs), hpair.1⟩
  have hp := h.nonempty p (by simp)
  refine hl.append (by rw [hlo]; exact hp.trans_le hhi) fun s hs => ?_
  rw [hlo]
  exact hpair.2.2 s hs p (mem_singleton.2 rfl)

/-! ## Ranges that meet -/

/-- The first range starts at `a`, each other where the one before it ends, the last ends at `b`. -/
def MeetFrom (lo hi : R → C) (a : C) : List R → C → Prop
  | [], b => a = b
  | r :: l, b => lo r = a ∧ MeetFrom lo hi (hi r) l b

theorem MeetFrom.le (h : MeetFrom lo hi a l b) (hne : ∀ r ∈ l, lo r < hi r) : a ≤ b := by
  induction l generalizing a with
  | nil => exact le_of_eq h
  | cons r l ih =>
    have hr : lo r < hi r := hne r mem_cons_self
    have hl : hi r ≤ b := ih h.2 fun s hs => hne s (mem_cons_of_mem r hs)
    exact h.1 ▸ hr.le.trans hl

theorem MeetFrom.lt (h : MeetFrom lo hi a l b) (hne : ∀ r ∈ l, lo r < hi r) (hl : l ≠ []) :
    a < b := by
  cases l with
  | nil => exact absurd rfl hl
  | cons r l =>
    have hrest : hi r ≤ b := h.2.le fun s hs => hne s (mem_cons_of_mem r hs)
    exact h.1 ▸ (hne r mem_cons_self).trans_le hrest

omit [LinearOrder C] in
theorem MeetFrom.isChain (h : MeetFrom lo hi a l b) : l.IsChain fun r s => hi r = lo s := by
  induction l generalizing a with
  | nil => exact isChain_nil
  | cons r l ih =>
    cases l with
    | nil => exact isChain_singleton r
    | cons s l => exact isChain_cons_cons.2 ⟨h.2.1.symm, ih h.2⟩

instance (r : R) (c : C) : Decidable (InRange lo hi r c) :=
  inferInstanceAs (Decidable (lo r ≤ c ∧ c < hi r))

theorem MeetFrom.countP (h : MeetFrom lo hi a l b) (hne : ∀ r ∈ l, lo r < hi r) (c : C) :
    l.countP (fun r => decide (InRange lo hi r c)) = if a ≤ c ∧ c < b then 1 else 0 := by
  induction l generalizing a with
  | nil =>
    obtain rfl : a = b := h
    rw [if_neg fun hc => absurd hc.2 (not_lt.2 hc.1)]
    rfl
  | cons r l ih =>
    have hr : lo r < hi r := hne r mem_cons_self
    have hl : ∀ s ∈ l, lo s < hi s := fun s hs => hne s (mem_cons_of_mem r hs)
    have hb : hi r ≤ b := h.2.le hl
    have hin : InRange lo hi r c ↔ a ≤ c ∧ c < hi r := by rw [InRange, h.1]
    rw [countP_cons, ih h.2 hl]
    simp only [hin, decide_eq_true_eq]
    have ha : a < hi r := h.1 ▸ hr
    rcases lt_or_ge c (hi r) with hc | hc
    · have hcb : c < b := hc.trans_le hb
      simp [hc, hcb, not_le.2 hc]
    · have hac : a ≤ c := ha.le.trans hc
      simp [hc, hac, not_lt.2 hc]

end Lists

end PolemoDB.Lib
