import PolemoDB.Lib.CutRanges

/-!
# Ranges of a column's values (`gporca/libgpopt/src/base/CRange.cpp`)

* `CRange` — two optional bounds, each included or excluded, over a linearly ordered type that
  stands for the comparator `IComparator`; a missing bound is a null pointer.
* `fDisjointLeft`, `fStartsBefore`, `fEndsAfter` and the tests built from them, `prngIntersect`,
  `prngDifferenceLeft`, `prngDifferenceRight`, `prngExtend` — the operations of the class.
  `none` of the outer `Option` is the dereference of a null pointer.

Each test is an order relation between the cuts `lo` and `hi` of the two ranges, up to the infinite
ends, where `FStartsBefore` and `FEndsAfter` also hold of two equal ends; each operation is
described by the cuts of its result.
-/

namespace PolemoDB.Gporca

open PolemoDB.Lib

universe u

/-! ## The class -/

inductive ERangeInclusion where
  | EriIncluded
  | EriExcluded
deriving DecidableEq

def eriInverseInclusion : ERangeInclusion → ERangeInclusion
  | .EriIncluded => .EriExcluded
  | .EriExcluded => .EriIncluded

/-- `CRange`, without the type's identifier. -/
structure CRange (α : Type u) where
  pdatumLeft : Option α
  eriLeft : ERangeInclusion
  pdatumRight : Option α
  eriRight : ERangeInclusion
deriving DecidableEq

open CRange

section Operations

variable {α : Type u} [LinearOrder α] (this prange : CRange α)

def fDisjointLeft : Bool :=
  match this.pdatumRight, prange.pdatumLeft with
  | some right, some left =>
    if right < left then true
    else if right = left then this.eriRight = .EriExcluded || prange.eriLeft = .EriExcluded
    else false
  | _, _ => false

def fStartsBefore : Bool :=
  match prange.pdatumLeft with
  | none => this.pdatumLeft.isNone
  | some pdatumLeft =>
    match this.pdatumLeft with
    | none => true
    | some left =>
      if left < pdatumLeft then true
      else if left > pdatumLeft then false
      else this.eriLeft = .EriIncluded && prange.eriLeft = .EriExcluded

def fStartsWithOrBefore : Bool :=
  if fStartsBefore this prange then true
  else
    match prange.pdatumLeft, this.pdatumLeft with
    | none, none => true
    | some pdatumLeft, some left => decide (left = pdatumLeft) && this.eriLeft = prange.eriLeft
    | _, _ => false

def fEndsAfter : Bool :=
  match prange.pdatumRight with
  | none => this.pdatumRight.isNone
  | some pdatumRight =>
    match this.pdatumRight with
    | none => true
    | some right =>
      if right > pdatumRight then true
      else if right < pdatumRight then false
      else this.eriRight = .EriIncluded && prange.eriRight = .EriExcluded

def fEndsWithOrAfter : Bool :=
  if fEndsAfter this prange then true
  else
    match prange.pdatumRight, this.pdatumRight with
    | none, none => true
    | some pdatumRight, some right =>
      decide (right = pdatumRight) && this.eriRight = prange.eriRight
    | _, _ => false

def contains : Bool :=
  fStartsWithOrBefore this prange && fEndsWithOrAfter this prange

def fOverlapsLeft : Bool :=
  fStartsBefore this prange && !fEndsAfter this prange && !fDisjointLeft this prange

def fOverlapsRight : Bool :=
  fEndsAfter this prange && !fStartsBefore this prange && !fDisjointLeft prange this

/-- `CRange::PrngIntersect`; the two inner bounds of an overlap are dereferenced. -/
def prngIntersect : Option (Option (CRange α)) :=
  if contains this prange then some (some prange)
  else if contains prange this then some (some this)
  else if fOverlapsLeft this prange then
    match prange.pdatumLeft, this.pdatumRight with
    | some left, some right => some (some ⟨some left, prange.eriLeft, some right, this.eriRight⟩)
    | _, _ => none
  else if fOverlapsRight this prange then
    match this.pdatumLeft, prange.pdatumRight with
    | some left, some right => some (some ⟨some left, this.eriLeft, some right, prange.eriRight⟩)
    | _, _ => none
  else some none

def prngDifferenceLeft : Option (CRange α) :=
  if fDisjointLeft this prange then some this
  else if prange.pdatumLeft.isSome && fStartsBefore this prange then
    some ⟨this.pdatumLeft, this.eriLeft, prange.pdatumLeft, eriInverseInclusion prange.eriLeft⟩
  else none

def prngDifferenceRight : Option (CRange α) :=
  if fDisjointLeft prange this then some this
  else if prange.pdatumRight.isSome && fEndsAfter this prange then
    some ⟨prange.pdatumRight, eriInverseInclusion prange.eriRight, this.pdatumRight, this.eriRight⟩
  else none

/-- `CRange::PrngExtend`; `Equals` dereferences both bounds. -/
def prngExtend : Option (Option (CRange α)) :=
  if prange.eriLeft = .EriIncluded ∨ this.eriRight = .EriIncluded then
    match prange.pdatumLeft, this.pdatumRight with
    | some left, some right =>
      if left = right then
        some (some ⟨this.pdatumLeft, this.eriLeft, prange.pdatumRight, prange.eriRight⟩)
      else some none
    | _, _ => none
  else some none

end Operations

/-! ## Cuts of a range -/

section Cuts

variable {α : Type u} [LinearOrder α] (r : CRange α)

/-- The lower cut. -/
def CRange.lo : Cut α :=
  match r.pdatumLeft, r.eriLeft with
  | none, _ => ⊥
  | some x, .EriIncluded => Cut.before x
  | some x, .EriExcluded => Cut.after x

/-- The upper cut. -/
def CRange.hi : Cut α :=
  match r.pdatumRight, r.eriRight with
  | none, _ => ⊤
  | some x, .EriIncluded => Cut.after x
  | some x, .EriExcluded => Cut.before x

/-- A range that is not empty: its bounds are ordered, a single point has both ends included, and a
missing bound is excluded. -/
structure CRange.Ok : Prop where
  lt : r.lo < r.hi
  left : r.pdatumLeft = none → r.eriLeft = .EriExcluded
  right : r.pdatumRight = none → r.eriRight = .EriExcluded

/-- The value lies in the range. -/
def CRange.Has (x : α) : Prop := InRange lo hi r (Cut.before x)

theorem CRange.has_iff (x : α) : r.Has x ↔
    (∀ l, r.pdatumLeft = some l → if r.eriLeft = .EriIncluded then l ≤ x else l < x) ∧
      (∀ h, r.pdatumRight = some h → if r.eriRight = .EriIncluded then x ≤ h else x < h) := by
  obtain ⟨left, el, right, er⟩ := r
  cases left <;> cases right <;> cases el <;> cases er <;> simp [Has, InRange, lo, hi]

theorem CRange.ok_iff : r.Ok ↔ (r.pdatumLeft = none → r.eriLeft = .EriExcluded) ∧
      (r.pdatumRight = none → r.eriRight = .EriExcluded) ∧
      ∀ l h, r.pdatumLeft = some l → r.pdatumRight = some h →
        l < h ∨ (l = h ∧ r.eriLeft = .EriIncluded ∧ r.eriRight = .EriIncluded) := by
  have key : r.lo < r.hi ↔ ∀ l h, r.pdatumLeft = some l → r.pdatumRight = some h →
      l < h ∨ (l = h ∧ r.eriLeft = .EriIncluded ∧ r.eriRight = .EriIncluded) := by
    obtain ⟨left, el, right, er⟩ := r
    cases left <;> cases right <;> cases el <;> cases er <;>
      simp [lo, hi, le_iff_lt_or_eq]
  exact ⟨fun h => ⟨h.left, h.right, key.1 h.lt⟩, fun ⟨h₁, h₂, h₃⟩ => ⟨key.2 h₃, h₁, h₂⟩⟩

/-! ### The tests -/

section

variable (a b : CRange α)

theorem fDisjointLeft_iff : fDisjointLeft a b = true ↔ a.hi ≤ b.lo := by
  obtain ⟨al, ael, ar, aer⟩ := a
  obtain ⟨bl, bel, br, ber⟩ := b
  cases ar with
  | none => cases bl <;> cases bel <;> simp [fDisjointLeft, lo, hi]
  | some x =>
    cases bl with
    | none => cases aer <;> simp [fDisjointLeft, lo, hi]
    | some y =>
      rcases lt_trichotomy x y with h | rfl | h <;> cases aer <;> cases bel <;>
        simp [fDisjointLeft, lo, hi, *, le_of_lt, not_lt_of_gt, ne_of_gt]

theorem fEndsAfter_iff :
    fEndsAfter a b = true ↔ b.hi < a.hi ∨ (a.pdatumRight = none ∧ b.pdatumRight = none) := by
  obtain ⟨al, ael, ar, aer⟩ := a
  obtain ⟨bl, bel, br, ber⟩ := b
  cases br with
  | none => cases ar <;> cases aer <;> simp [fEndsAfter, hi]
  | some y =>
    cases ar with
    | none => cases ber <;> simp [fEndsAfter, hi]
    | some x =>
      rcases lt_trichotomy x y with h | rfl | h <;> cases aer <;> cases ber <;>
        simp [fEndsAfter, hi, *, le_of_lt, not_lt_of_gt]

theorem fStartsBefore_iff :
    fStartsBefore a b = true ↔ a.lo < b.lo ∨ (a.pdatumLeft = none ∧ b.pdatumLeft = none) := by
  obtain ⟨al, ael, ar, aer⟩ := a
  obtain ⟨bl, bel, br, ber⟩ := b
  cases bl with
  | none => cases al <;> cases ael <;> simp [fStartsBefore, lo]
  | some y =>
    cases al with
    | none => cases bel <;> simp [fStartsBefore, lo]
    | some x =>
      rcases lt_trichotomy x y with h | rfl | h <;> cases ael <;> cases bel <;>
        simp [fStartsBefore, lo, *, le_of_lt, not_lt_of_gt]

theorem fEndsWithOrAfter_iff : fEndsWithOrAfter a b = true ↔ b.hi ≤ a.hi := by
  obtain ⟨al, ael, ar, aer⟩ := a
  obtain ⟨bl, bel, br, ber⟩ := b
  cases br with
  | none => cases ar <;> cases aer <;> simp [fEndsWithOrAfter, fEndsAfter, hi]
  | some y =>
    cases ar with
    | none => cases ber <;> simp [fEndsWithOrAfter, fEndsAfter, hi]
    | some x =>
      rcases lt_trichotomy x y with h | rfl | h <;> cases aer <;> cases ber <;>
        simp [fEndsWithOrAfter, fEndsAfter, hi, *, le_of_lt, not_lt_of_gt, ne_of_lt]

theorem fStartsWithOrBefore_iff : fStartsWithOrBefore a b = true ↔ a.lo ≤ b.lo := by
  obtain ⟨al, ael, ar, aer⟩ := a
  obtain ⟨bl, bel, br, ber⟩ := b
  cases bl with
  | none => cases al <;> cases ael <;> simp [fStartsWithOrBefore, fStartsBefore, lo]
  | some y =>
    cases al with
    | none => cases bel <;> simp [fStartsWithOrBefore, fStartsBefore, lo]
    | some x =>
      rcases lt_trichotomy x y with h | rfl | h <;> cases ael <;> cases bel <;>
        simp [fStartsWithOrBefore, fStartsBefore, lo, *, le_of_lt, not_lt_of_gt, ne_of_gt]

theorem contains_iff : contains a b = true ↔ a.lo ≤ b.lo ∧ b.hi ≤ a.hi := by
  rw [contains, Bool.and_eq_true, fStartsWithOrBefore_iff, fEndsWithOrAfter_iff]

end

variable {a b : CRange α}

theorem fEndsAfter_le (h : fEndsAfter a b = true) : b.hi ≤ a.hi :=
  (fEndsWithOrAfter_iff a b).1 (by rw [fEndsWithOrAfter, if_pos h])

theorem not_fEndsAfter_le (h : ¬ fEndsAfter a b = true) : a.hi ≤ b.hi := by
  rw [fEndsAfter_iff, not_or, not_lt] at h
  exact h.1

/-! ### The operations -/

theorem exists_left_of_lt {r : CRange α} {c : Cut α} (h : c < r.lo) :
    ∃ x, r.pdatumLeft = some x := by
  obtain ⟨left, el, right, er⟩ := r
  cases left with
  | none => exact absurd h not_lt_bot
  | some x => exact ⟨x, rfl⟩

theorem exists_right_of_lt {r : CRange α} {c : Cut α} (h : r.hi < c) :
    ∃ x, r.pdatumRight = some x := by
  obtain ⟨left, el, right, er⟩ := r
  cases right with
  | none => exact absurd h not_top_lt
  | some x => exact ⟨x, rfl⟩

omit [LinearOrder α] in
theorem hi_inverse (x : α) (e : ERangeInclusion) (left : Option α) (el : ERangeInclusion)
    (right : Option α) (er : ERangeInclusion) :
    (mk left el (some x) (eriInverseInclusion e)).hi = (mk (some x) e right er).lo := by
  cases e <;> rfl

omit [LinearOrder α] in
theorem lo_inverse (x : α) (e : ERangeInclusion) (left : Option α) (el : ERangeInclusion)
    (right : Option α) (er : ERangeInclusion) :
    (mk (some x) (eriInverseInclusion e) right er).lo = (mk left el (some x) e).hi := by
  cases e <;> rfl

/-- **`PrngDifferenceLeft`** is the part before the other range starts. -/
theorem prngDifferenceLeft_spec (ha : a.Ok) (b : CRange α) :
    (prngDifferenceLeft a b = none ∧ b.lo ≤ a.lo) ∨
      ∃ d, prngDifferenceLeft a b = some d ∧ d.Ok ∧ d.lo = a.lo ∧ d.hi = min a.hi b.lo := by
  unfold prngDifferenceLeft
  by_cases hdis : fDisjointLeft a b = true
  · rw [if_pos hdis]
    exact .inr ⟨a, rfl, ha, rfl, (min_eq_left ((fDisjointLeft_iff a b).1 hdis)).symm⟩
  rw [if_neg hdis]
  have hlt : b.lo < a.hi := by
    rw [fDisjointLeft_iff, not_le] at hdis
    exact hdis
  by_cases hst : (b.pdatumLeft.isSome && fStartsBefore a b) = true
  · rw [if_pos hst]
    rw [Bool.and_eq_true, fStartsBefore_iff] at hst
    obtain ⟨hsome, hlo⟩ := hst
    obtain ⟨y, hy⟩ := Option.isSome_iff_exists.1 hsome
    have hlo' : a.lo < b.lo :=
      hlo.resolve_right fun h => by rw [hy] at h; exact absurd h.2 (by simp)
    obtain ⟨bl, bel, br, ber⟩ := b
    obtain rfl : bl = some y := hy
    refine .inr ⟨_, rfl, ⟨?_, ha.left, nofun⟩, rfl, ?_⟩
    · rw [hi_inverse y bel _ _ br ber]
      exact hlo'
    · rw [hi_inverse y bel _ _ br ber, min_eq_right hlt.le]
  · rw [if_neg hst]
    refine .inl ⟨rfl, ?_⟩
    by_contra hnot
    rw [not_le] at hnot
    refine hst (Bool.and_eq_true_iff.2 ⟨?_, (fStartsBefore_iff a b).2 (.inl hnot)⟩)
    exact Option.isSome_iff_exists.2 (exists_left_of_lt hnot)

/-- **`PrngDifferenceRight`** is the part after the other range ends. -/
theorem prngDifferenceRight_spec (ha : a.Ok) (b : CRange α) :
    (prngDifferenceRight a b = none ∧ a.hi ≤ b.hi) ∨
      ∃ d, prngDifferenceRight a b = some d ∧ d.Ok ∧ d.lo = max a.lo b.hi ∧ d.hi = a.hi := by
  unfold prngDifferenceRight
  by_cases hdis : fDisjointLeft b a = true
  · rw [if_pos hdis]
    exact .inr ⟨a, rfl, ha, (max_eq_left ((fDisjointLeft_iff b a).1 hdis)).symm, rfl⟩
  rw [if_neg hdis]
  have hlt : a.lo < b.hi := by
    rw [fDisjointLeft_iff, not_le] at hdis
    exact hdis
  by_cases hst : (b.pdatumRight.isSome && fEndsAfter a b) = true
  · rw [if_pos hst]
    rw [Bool.and_eq_true, fEndsAfter_iff] at hst
    obtain ⟨hsome, hhi⟩ := hst
    obtain ⟨y, hy⟩ := Option.isSome_iff_exists.1 hsome
    have hhi' : b.hi < a.hi :=
      hhi.resolve_right fun h => by rw [hy] at h; exact absurd h.2 (by simp)
    obtain ⟨bl, bel, br, ber⟩ := b
    obtain rfl : br = some y := hy
    refine .inr ⟨_, rfl, ⟨?_, nofun, ha.right⟩, ?_, rfl⟩
    · rw [lo_inverse y ber bl bel _ _]
      exact hhi'
    · rw [lo_inverse y ber bl bel _ _, max_eq_right hlt.le]
  · rw [if_neg hst]
    refine .inl ⟨rfl, ?_⟩
    by_contra hnot
    rw [not_le] at hnot
    refine hst (Bool.and_eq_true_iff.2 ⟨?_, (fEndsAfter_iff a b).2 (.inl hnot)⟩)
    exact Option.isSome_iff_exists.2 (exists_right_of_lt hnot)

/-- **`PrngExtend`** joins a range with one that starts at or after its end, if they touch, and
dereferences no null pointer. -/
theorem prngExtend_spec (ha : a.Ok) (hb : b.Ok) (hab : a.hi ≤ b.lo) :
    (prngExtend a b = some none ∧ a.hi < b.lo) ∨
      ∃ d, prngExtend a b = some (some d) ∧ d.Ok ∧ a.hi = b.lo ∧ d.lo = a.lo ∧ d.hi = b.hi := by
  -- both inner bounds exist: the end of `a` is not infinite, nor is the start of `b`
  obtain ⟨x, hx⟩ := exists_right_of_lt (hab.trans_lt hb.lt)
  obtain ⟨y, hy⟩ := exists_left_of_lt (ha.lt.trans_le hab)
  obtain ⟨al, ael, ar, aer⟩ := a
  obtain ⟨bl, bel, br, ber⟩ := b
  obtain rfl : ar = some x := hx
  obtain rfl : bl = some y := hy
  -- what joining needs, once the two cuts are the same
  have hjoin : ∀ h : (mk al ael (some x) aer).hi = (mk (some y) bel br ber).lo,
      (mk al ael br ber).Ok := fun h =>
    ⟨(ha.lt.trans_eq h).trans hb.lt, ha.left, hb.right⟩
  have hle : x ≤ y := by cases aer <;> cases bel <;> simp_all [hi, lo, le_of_lt]
  rcases hle.lt_or_eq with hlt | rfl
  · -- a gap
    refine .inl ⟨by cases aer <;> cases bel <;> simp [prngExtend, hlt.ne'], ?_⟩
    cases aer <;> cases bel <;> simp [hi, lo, hlt, hle]
  cases aer <;> cases bel
  · simp [hi, lo] at hab
  · exact .inr ⟨_, by simp [prngExtend], hjoin rfl, rfl, rfl, rfl⟩
  · exact .inr ⟨_, by simp [prngExtend], hjoin rfl, rfl, rfl, rfl⟩
  · exact .inl ⟨by simp [prngExtend], by simp [hi, lo]⟩

/-- **`PrngIntersect`** is the part between the later start and the earlier end, and dereferences no
null pointer. -/
theorem prngIntersect_spec (ha : a.Ok) (hb : b.Ok) :
    ∃ res, prngIntersect a b = some res ∧ ((res = none ∧ (a.hi ≤ b.lo ∨ b.hi ≤ a.lo)) ∨
      ∃ d, res = some d ∧ d.Ok ∧ d.lo = max a.lo b.lo ∧ d.hi = min a.hi b.hi) := by
  unfold prngIntersect
  by_cases hc : contains a b = true
  · rw [if_pos hc]
    rw [contains_iff] at hc
    exact ⟨some b, rfl, .inr ⟨b, rfl, hb, (max_eq_right hc.1).symm, (min_eq_right hc.2).symm⟩⟩
  rw [if_neg hc]
  by_cases hc' : contains b a = true
  · rw [if_pos hc']
    rw [contains_iff] at hc'
    exact ⟨some a, rfl, .inr ⟨a, rfl, ha, (max_eq_left hc'.1).symm, (min_eq_left hc'.2).symm⟩⟩
  rw [if_neg hc']
  rw [contains_iff] at hc hc'
  rcases le_or_gt a.lo b.lo with hlo | hlo
  · -- `a` starts and ends first
    have hhi : a.hi < b.hi := lt_of_not_ge fun h => hc ⟨hlo, h⟩
    have hlo' : a.lo < b.lo := lt_of_not_ge fun h => hc' ⟨h, hhi.le⟩
    have hends : fEndsAfter a b = false := by
      rw [Bool.eq_false_iff, Ne, fEndsAfter_iff]
      rintro (h | ⟨h, -⟩)
      · exact absurd h hhi.not_gt
      · obtain ⟨x, hx⟩ := exists_right_of_lt hhi
        rw [hx] at h
        exact absurd h (by simp)
    by_cases hdis : fDisjointLeft a b = true
    · rw [if_neg (by simp [fOverlapsLeft, hdis]), if_neg (by simp [fOverlapsRight, hends])]
      exact ⟨none, rfl, .inl ⟨rfl, .inl ((fDisjointLeft_iff a b).1 hdis)⟩⟩
    have hstarts : fStartsBefore a b = true := (fStartsBefore_iff a b).2 (.inl hlo')
    rw [if_pos (by simp [fOverlapsLeft, hdis, hends, hstarts])]
    rw [fDisjointLeft_iff, not_le] at hdis
    obtain ⟨x, hx⟩ := exists_left_of_lt hlo'
    obtain ⟨y, hy⟩ := exists_right_of_lt hhi
    obtain ⟨al, ael, ar, aer⟩ := a
    obtain ⟨bl, bel, br, ber⟩ := b
    obtain rfl : bl = some x := hx
    obtain rfl : ar = some y := hy
    exact ⟨_, rfl, .inr ⟨_, rfl, ⟨hdis, nofun, nofun⟩,
      (max_eq_right hlo).symm, (min_eq_left hhi.le).symm⟩⟩
  · -- `b` starts and ends first
    have hhi : b.hi < a.hi := lt_of_not_ge fun h => hc' ⟨hlo.le, h⟩
    have hends : fEndsAfter a b = true := (fEndsAfter_iff a b).2 (.inl hhi)
    have hstarts : fStartsBefore a b = false := by
      rw [Bool.eq_false_iff, Ne, fStartsBefore_iff]
      rintro (h | ⟨h, -⟩)
      · exact absurd h hlo.not_gt
      · obtain ⟨x, hx⟩ := exists_left_of_lt hlo
        rw [hx] at h
        exact absurd h (by simp)
    rw [if_neg (by simp [fOverlapsLeft, hends])]
    by_cases hdis : fDisjointLeft b a = true
    · rw [if_neg (by simp [fOverlapsRight, hdis])]
      exact ⟨none, rfl, .inl ⟨rfl, .inr ((fDisjointLeft_iff b a).1 hdis)⟩⟩
    rw [if_pos (by simp [fOverlapsRight, hdis, hends, hstarts])]
    rw [fDisjointLeft_iff, not_le] at hdis
    obtain ⟨x, hx⟩ := exists_left_of_lt hlo
    obtain ⟨y, hy⟩ := exists_right_of_lt hhi
    obtain ⟨al, ael, ar, aer⟩ := a
    obtain ⟨bl, bel, br, ber⟩ := b
    obtain rfl : al = some x := hx
    obtain rfl : br = some y := hy
    exact ⟨_, rfl, .inr ⟨_, rfl, ⟨hdis, nofun, nofun⟩,
      (max_eq_left hlo.le).symm, (min_eq_right hhi.le).symm⟩⟩

end Cuts

end PolemoDB.Gporca
