import Mathlib.Data.List.Sort
import PolemoDB.Gporca.Derivation

/-!
# Intervals from array comparisons (`CConstraintInterval.cpp`, `CDatumSortedSet.cpp`)

`PcnstrIntervalFromScalarArrayCmp` turns `column = ANY (…)` into points and `column <> ALL (…)` into
the gaps between the constants. The constants are sorted, without the nulls and without repetitions.

* `cDatumSortedSet` — the constants in strictly ascending order.
* `notInRanges` — the gaps; `none` is the dereference of the datum that a list of nulls does not
  have.
* `CScalarArrayCmp.eval` — the value SQL gives the comparison, for both quantifiers.

The function does not look at the quantifier. Points are right for both, since `= ALL` holds for
fewer values. The gaps are wrong for `<> ANY`, which holds for every value as soon as there are two
different constants.
-/

namespace PolemoDB.Gporca

open PolemoDB.Lib List Option CRange

universe u

/-! ## The comparison -/

inductive EArrCmpType where
  | EarrcmpAny
  | EarrcmpAll
deriving DecidableEq

/-- `CScalarArrayCmp` of a column with an array of constants; a null constant is `none`. -/
structure CScalarArrayCmp (α : Type u) where
  cmp_type : ECmpType
  earrcmptype : EArrCmpType
  datums : List (Option α)

section

variable {α : Type u} [LinearOrder α]

/-- The comparison of the column with one constant. -/
def cmp3 (cmp_type : ECmpType) (v c : Option α) : Option Bool :=
  v.bind fun x => c.map fun c => cmp_type.eval x c

/-- SQL's value of the comparison for a value of the column. -/
def CScalarArrayCmp.eval (e : CScalarArrayCmp α) (v : Option α) : Option Bool :=
  match e.earrcmptype with
  | .EarrcmpAny => disj3 (e.datums.map (cmp3 e.cmp_type v))
  | .EarrcmpAll => conj3 (e.datums.map (cmp3 e.cmp_type v))

theorem cmp3_eq_true {t : ECmpType} {v c : Option α} :
    cmp3 t v c = some true ↔ ∃ x y, v = some x ∧ c = some y ∧ t.eval x y = true := by
  cases v <;> cases c <;> simp [cmp3]

variable {e : CScalarArrayCmp α} {l : List α}

theorem eval_any_eq_true (h : e.earrcmptype = .EarrcmpAny) (v : Option α) :
    e.eval v = some true ↔ ∃ x y, v = some x ∧ some y ∈ e.datums ∧ e.cmp_type.eval x y = true := by
  simp only [CScalarArrayCmp.eval, h, disj3_eq_true, List.mem_map, exists_exists_and_eq_and,
    cmp3_eq_true]
  constructor
  · rintro ⟨c, hc, x, y, rfl, rfl, hxy⟩
    exact ⟨x, y, rfl, hc, hxy⟩
  · rintro ⟨x, y, rfl, hc, hxy⟩
    exact ⟨some y, hc, x, y, rfl, rfl, hxy⟩

theorem eval_all_eq_true (h : e.earrcmptype = .EarrcmpAll) (v : Option α) :
    e.eval v = some true ↔ ∀ c ∈ e.datums, ∃ x y, v = some x ∧ c = some y ∧
    e.cmp_type.eval x y = true := by
  simp only [CScalarArrayCmp.eval, h, conj3_eq_true, List.forall_mem_map, cmp3_eq_true]

theorem exists_of_eval_true (hne : e.datums ≠ []) {v : Option α} (h : e.eval v = some true) :
    ∃ x y, v = some x ∧ some y ∈ e.datums ∧ e.cmp_type.eval x y = true := by
  cases hq : e.earrcmptype with
  | EarrcmpAny => exact (eval_any_eq_true hq v).mp h
  | EarrcmpAll =>
    obtain ⟨c, hc⟩ := exists_mem_of_ne_nil _ hne
    obtain ⟨x, y, hx, rfl, hxy⟩ := (eval_all_eq_true hq v).mp h c hc
    exact ⟨x, y, hx, hc, hxy⟩

/-! ## The sorted constants -/

/-- The loop of `CDatumSortedSet` that skips a datum equal to the one before. -/
def dedupLoop (pdatumPrev : α) : List α → List α
  | [] => []
  | datum :: rest => if datum = pdatumPrev then dedupLoop pdatumPrev rest else datum :: dedupLoop
    datum rest

def cDatumSortedSet (datums : List (Option α)) : List α :=
  match (datums.filterMap id).insertionSort (· ≤ ·) with
  | [] => []
  | pdatumPrev :: rest => pdatumPrev :: dedupLoop pdatumPrev rest

theorem dedupLoop_spec (l : List α) (prev : α) (h : (prev :: l).Pairwise (· ≤ ·)) :
    (prev :: dedupLoop prev l).Pairwise (· < ·) ∧ ∀ x, x ∈ prev :: dedupLoop prev l ↔
    x ∈ prev :: l := by
  fun_induction dedupLoop prev l with
  | case1 => exact ⟨pairwise_singleton _ _, fun x => Iff.rfl⟩
  | case2 d l ih =>
    obtain ⟨hsorted, hmem⟩ := ih h.of_cons
    refine ⟨hsorted, fun x => (hmem x).trans ?_⟩
    simp only [mem_cons, or_self_left]
  | case3 prev d l hd ih =>
    obtain ⟨hprev, hl⟩ := pairwise_cons.mp h
    obtain ⟨hsorted, hmem⟩ := ih hl
    refine ⟨pairwise_cons.mpr ⟨fun x hx => ?_, hsorted⟩, fun x => ?_⟩
    · have hlt : prev < d := lt_of_le_of_ne (hprev d mem_cons_self) (Ne.symm hd)
      rcases mem_cons.mp ((hmem x).mp hx) with rfl | hx
      · exact hlt
      · exact hlt.trans_le ((pairwise_cons.mp hl).1 x hx)
    · rw [mem_cons, hmem x, ← mem_cons]

theorem cDatumSortedSet_spec (datums : List (Option α)) :
    (cDatumSortedSet datums).Pairwise (· < ·) ∧ ∀ x, x ∈ cDatumSortedSet datums ↔
    some x ∈ datums := by
  have hsorted := pairwise_insertionSort (· ≤ ·) (datums.filterMap id)
  have hmem : ∀ x, x ∈ (datums.filterMap id).insertionSort (· ≤ ·) ↔ some x ∈ datums := fun x => by
    simp
  unfold cDatumSortedSet
  cases hl : (datums.filterMap id).insertionSort (· ≤ ·) with
  | nil =>
    rw [hl] at hmem
    exact ⟨List.Pairwise.nil, hmem⟩
  | cons prev rest =>
    rw [hl] at hsorted hmem
    obtain ⟨hlt, hsame⟩ := dedupLoop_spec rest prev hsorted
    exact ⟨hlt, fun x => (hsame x).trans (hmem x)⟩

/-! ## The interval -/

/-- The ranges of `EcmptNEq`: from the datum before, or from minus infinity, to each datum, and from
the last one on. -/
def notInRanges (pprevdatum : Option α) : List α → Option (List (CRange α))
  | [] => pprevdatum.map fun last => [⟨some last, .EriExcluded, none, .EriExcluded⟩]
  | datum :: rest =>
    (notInRanges (some datum) rest).map (⟨pprevdatum, .EriExcluded, some datum, .EriExcluded⟩ :: ·)

section

variable (e : CScalarArrayCmp α)

/-- `PcnstrIntervalFromScalarArrayCmp` of a column and an array of constants. The outer `none` is
the dereference of a null pointer, the inner one the `nullptr` that says no interval could be
created. -/
def pcnstrIntervalFromScalarArrayCmp (infer_nulls_as : Bool) :
    Option (Option (CConstraintInterval α)) :=
  if e.datums.length = 0 then some none
  else
    match e.cmp_type with
    | .EcmptEq => some (some ⟨(cDatumSortedSet e.datums).map (ofCmp .EcmptEq), infer_nulls_as⟩)
    | .EcmptNEq =>
      (notInRanges none (cDatumSortedSet e.datums)).map fun prgrng => some ⟨prgrng, infer_nulls_as⟩
    -- does not handle IS DISTINCT FROM
    | _ => some none

theorem ofCmp_eq_has {c x : α} : (ofCmp .EcmptEq c).Has x ↔ x = c := by
  rw [has_iff]
  simp only [ofCmp, some.injEq, forall_eq', if_true]
  exact ⟨fun h => le_antisymm h.2 h.1, fun h => ⟨h.ge, h.le⟩⟩

theorem points_spec (hl : l.Pairwise (· < ·)) :
    Canon (l.map (ofCmp .EcmptEq)) ∧ ∀ x, (∃ r ∈ l.map (ofCmp .EcmptEq), r.Has x) ↔ x ∈ l := by
  refine ⟨⟨?_, ?_⟩, fun x => ?_⟩
  · simp [ok_iff, ofCmp]
  · rw [pairwise_map]
    exact hl.imp fun h => (hi_lt_lo_iff _ _).mpr ⟨_, _, rfl, rfl, .inl h⟩
  · simp only [List.mem_map, exists_exists_and_eq_and, ofCmp_eq_has, exists_eq_right']

/-- What the gaps behind a datum have: all values behind it that are not in the list. -/
structure Gaps (pprevdatum : Option α) (l : List α) (rs : List (CRange α)) : Prop where
  canon : Canon rs
  starts : ∀ r ∈ rs, ∀ p, pprevdatum = some p → ∃ q, r.pdatumLeft = some q ∧ p ≤ q ∧
    r.eriLeft = .EriExcluded
  has : ∀ x, (∃ r ∈ rs, r.Has x) ↔ (∀ p, pprevdatum = some p → p < x) ∧ x ∉ l

theorem gaps_last (p : α) : Gaps (some p) [] [⟨some p, .EriExcluded, none, .EriExcluded⟩] where
  canon := canon_nil.append (by simp [ok_iff]) (by simp)
  starts := by simp
  has := by simp [has_iff]

theorem Gaps.cons {prev : Option α} {d : α} {rs : List (CRange α)} (hprev : ∀ p, prev = some p →
    p < d) (hd : ∀ x ∈ l, d < x) (h : Gaps (some d) l rs) :
    Gaps prev (d :: l) (⟨prev, .EriExcluded, some d, .EriExcluded⟩ :: rs) where
  canon := by
    refine ⟨fun r hr => ?_, pairwise_cons.mpr ⟨fun s hs => ?_, h.canon.apart⟩⟩
    · rcases mem_cons.mp hr with rfl | hr
      · rw [ok_iff]
        refine ⟨fun _ => rfl, fun _ => rfl, fun lo hi hlo hhi => .inl ?_⟩
        obtain rfl := some.inj hhi
        exact hprev lo hlo
      · exact h.canon.ok r hr
    obtain ⟨q, hq, hle, hexcl⟩ := h.starts s hs d rfl
    refine (hi_lt_lo_iff _ _).mpr ⟨d, q, rfl, hq, ?_⟩
    rcases hle.lt_or_eq with hlt | heq
    · exact .inl hlt
    · exact .inr ⟨heq, rfl, hexcl⟩
  starts := by
    intro r hr p hp
    rcases mem_cons.mp hr with rfl | hr
    · exact ⟨p, hp, le_refl p, rfl⟩
    · obtain ⟨q, hq, hle, hexcl⟩ := h.starts r hr d rfl
      exact ⟨q, hq, (hprev p hp).le.trans hle, hexcl⟩
  has := by
    intro x
    have hhead : Has ⟨prev, .EriExcluded, some d, .EriExcluded⟩ x ↔ (∀ p, prev = some p → p < x) ∧
        x < d := by
      simp [has_iff]
    have hrest : (∃ r ∈ rs, r.Has x) ↔ d < x ∧ x ∉ l := by simpa using h.has x
    simp only [mem_cons, exists_eq_or_imp, hhead, hrest, not_or]
    constructor
    · rintro (⟨hp, hlt⟩ | ⟨hlt, hnot⟩)
      · exact ⟨hp, hlt.ne, fun hx => (hd x hx).not_gt hlt⟩
      · exact ⟨fun p hp => (hprev p hp).trans hlt, hlt.ne', hnot⟩
    rintro ⟨hp, hne, hnot⟩
    rcases lt_or_gt_of_ne hne with hlt | hlt
    · exact .inl ⟨hp, hlt⟩
    · exact .inr ⟨hlt, hnot⟩

theorem notInRanges_behind (l : List α) (d : α) (h : (d :: l).Pairwise (· < ·)) :
    ∃ rs, notInRanges (some d) l = some rs ∧ Gaps (some d) l rs := by
  induction l generalizing d with
  | nil => exact ⟨_, rfl, gaps_last d⟩
  | cons d' l ih =>
    obtain ⟨hd, hl⟩ := pairwise_cons.mp h
    obtain ⟨rs, hrs, hgaps⟩ := ih d' hl
    refine ⟨⟨some d, .EriExcluded, some d', .EriExcluded⟩ :: rs, by rw [notInRanges, hrs]; rfl, ?_⟩
    refine hgaps.cons (fun p hp => ?_) (pairwise_cons.mp hl).1
    obtain rfl := some.inj hp
    exact hd d' mem_cons_self

theorem notInRanges_spec (h : l.Pairwise (· < ·)) (hne : l ≠ []) :
    ∃ rs, notInRanges none l = some rs ∧ Canon rs ∧ ∀ x, (∃ r ∈ rs, r.Has x) ↔ x ∉ l := by
  obtain ⟨d, l, rfl⟩ := exists_cons_of_ne_nil hne
  obtain ⟨rs, hrs, hgaps⟩ := notInRanges_behind l d h
  have hall : Gaps none (d :: l) (⟨none, .EriExcluded, some d, .EriExcluded⟩ :: rs) :=
    hgaps.cons (by simp) (pairwise_cons.mp h).1
  exact ⟨_, by rw [notInRanges, hrs]; rfl, hall.canon, fun x => by simpa using hall.has x⟩

/-! ## Which comparisons keep their values -/

/-- No absent datum is dereferenced, and the interval, if there is one, is canonical and has every
value for which the comparison is true. -/
def Sound : Prop := ∃ r, pcnstrIntervalFromScalarArrayCmp e false = some r ∧
    ∀ I, r = some I → I.Canonical ∧ ∀ v, e.eval v = some true → I.Has v

/-- A constant that is not null. -/
def HasDatum : Prop := ∃ a, some a ∈ e.datums

/-- Two different constants. -/
def TwoDatums : Prop := ∃ a b, some a ∈ e.datums ∧ some b ∈ e.datums ∧ a ≠ b

end

theorem eq_sound (hop : e.cmp_type = .EcmptEq) (hne : e.datums ≠ []) : Sound e := by
  obtain ⟨hsorted, hmem⟩ := cDatumSortedSet_spec e.datums
  obtain ⟨hcanon, hhas⟩ := points_spec hsorted
  refine ⟨some ⟨(cDatumSortedSet e.datums).map (ofCmp .EcmptEq), false⟩, ?_, fun I hI => ?_⟩
  · rw [pcnstrIntervalFromScalarArrayCmp, if_neg (by simpa using hne), hop]
  obtain rfl := some.inj hI
  refine ⟨hcanon, fun v hv => ?_⟩
  obtain ⟨x, y, rfl, hy, hxy⟩ := exists_of_eval_true hne hv
  rw [hop] at hxy
  obtain rfl : x = y := of_decide_eq_true hxy
  exact (hhas x).mpr ((hmem x).mpr hy)

section

variable (hop : e.cmp_type = .EcmptNEq)
include hop

theorem neq_interval (hdatum : HasDatum e) :
    ∃ I, pcnstrIntervalFromScalarArrayCmp e false = some (some I) ∧ I.Canonical ∧
      ∀ x, I.Has (some x) ↔ some x ∉ e.datums := by
  obtain ⟨hsorted, hmem⟩ := cDatumSortedSet_spec e.datums
  obtain ⟨a, ha⟩ := hdatum
  obtain ⟨rs, hrs, hcanon, hhas⟩ := notInRanges_spec hsorted (ne_nil_of_mem ((hmem a).mpr ha))
  refine ⟨⟨rs, false⟩, ?_, hcanon, fun x => (hhas x).trans (not_congr (hmem x))⟩
  have hlength : ¬ e.datums.length = 0 := by simpa using ne_nil_of_mem ha
  rw [pcnstrIntervalFromScalarArrayCmp, if_neg hlength, hop]
  rw [hrs, map_some]

theorem neq_dereferences (hne : e.datums ≠ [])
    (hnulls : ¬ HasDatum e) : pcnstrIntervalFromScalarArrayCmp e false = none := by
  have hempty : cDatumSortedSet e.datums = [] := eq_nil_iff_forall_not_mem.mpr fun x hx =>
    hnulls ⟨x, ((cDatumSortedSet_spec e.datums).2 x).mp hx⟩
  rw [pcnstrIntervalFromScalarArrayCmp, if_neg (by simpa using hne), hop]
  rw [hempty]
  rfl

/-- A value that `<>` is true for is not in the list, unless the quantifier is ANY and there are two
constants. -/
theorem not_mem_of_neq_true
    (hquant : ¬ (e.earrcmptype = .EarrcmpAny ∧ TwoDatums e)) {x : α}
    (hx : e.eval (some x) = some true) : some x ∉ e.datums := by
  intro hmem
  cases hq : e.earrcmptype with
  | EarrcmpAny =>
    obtain ⟨x', y, hx', hy, hxy⟩ := (eval_any_eq_true hq _).mp hx
    obtain rfl := some.inj hx'
    rw [hop] at hxy
    exact hquant ⟨hq, x, y, hmem, hy, of_decide_eq_true hxy⟩
  | EarrcmpAll =>
    obtain ⟨x', y, hx', hy, hxy⟩ := (eval_all_eq_true hq _).mp hx (some x) hmem
    obtain rfl := some.inj hx'
    obtain rfl := some.inj hy
    rw [hop] at hxy
    exact of_decide_eq_true hxy rfl

theorem neq_any_eval_mem (hq : e.earrcmptype = .EarrcmpAny)
    {a b : α} (hb : some b ∈ e.datums) (hab : a ≠ b) : e.eval (some a) = some true := by
  refine (eval_any_eq_true hq _).mpr ⟨a, b, rfl, hb, ?_⟩
  rw [hop]
  exact decide_eq_true hab

end

/-- **The interval of an array comparison** with `=` or `<>` is sound, except for `<>` with nulls
only and for `<> ANY` with two different constants. -/
theorem arrayCmp_sound_iff (e : CScalarArrayCmp α) (hop : e.cmp_type = .EcmptEq ∨
    e.cmp_type = .EcmptNEq) (hne : e.datums ≠ []) :
    Sound e ↔ e.cmp_type = .EcmptNEq → HasDatum e ∧
    ¬ (e.earrcmptype = .EarrcmpAny ∧ TwoDatums e) := by
  rcases hop with hop | hop
  · exact iff_of_true (eq_sound hop hne) fun h => absurd (hop.symm.trans h) (by decide)
  constructor
  · rintro ⟨r, hr, hsound⟩ -
    have hdatum : HasDatum e := by
      by_contra hnulls
      rw [neq_dereferences hop hne hnulls] at hr
      cases hr
    refine ⟨hdatum, ?_⟩
    rintro ⟨hq, a, b, ha, hb, hab⟩
    obtain ⟨I, hI, -, hhas⟩ := neq_interval hop hdatum
    obtain rfl := some.inj (hr.symm.trans hI)
    have hlost := (hsound I rfl).2 (some a) (neq_any_eval_mem hop hq hb hab)
    exact (hhas a).mp hlost ha
  · intro h
    obtain ⟨hdatum, hquant⟩ := h hop
    obtain ⟨I, hI, hcanon, hhas⟩ := neq_interval hop hdatum
    refine ⟨some I, hI, fun I' hI' => ?_⟩
    obtain rfl := some.inj hI'
    refine ⟨hcanon, fun v hv => ?_⟩
    obtain ⟨x, -, rfl, -, -⟩ := exists_of_eval_true hne hv
    exact (hhas x).mpr (not_mem_of_neq_true hop hquant hv)

end

/-- `a <> ALL (3, NULL, 1, 3)` is sound. -/
theorem arrayCmp_sound_notIn :
    Sound (⟨.EcmptNEq, .EarrcmpAll, [some 3, none, some 1, some 3]⟩ : CScalarArrayCmp ℤ) :=
  (arrayCmp_sound_iff _ (.inr rfl) (by simp)).mpr fun _ => ⟨⟨3, by simp⟩, fun h => by cases h.1⟩

/-- **The two cases that are not**: `a <> ANY (1, 2)` is true for 1, which the ranges do not have,
and `a <> ALL (NULL)` dereferences a datum that is not there. -/
theorem arrayCmp_neq_any_loses_value :
    pcnstrIntervalFromScalarArrayCmp (⟨.EcmptNEq, .EarrcmpAny, [some 1, some 2]⟩ :
        CScalarArrayCmp ℤ) false =
          some (some ⟨[⟨none, .EriExcluded, some 1, .EriExcluded⟩,
          ⟨some 1, .EriExcluded, some 2, .EriExcluded⟩, ⟨some 2, .EriExcluded, none, .EriExcluded⟩],
          false⟩) ∧
      (⟨.EcmptNEq, .EarrcmpAny, [some 1, some 2]⟩ : CScalarArrayCmp ℤ).eval (some 1) = some true ∧
      ¬ Sound (⟨.EcmptNEq, .EarrcmpAny, [some 1, some 2]⟩ : CScalarArrayCmp ℤ) ∧
      pcnstrIntervalFromScalarArrayCmp (⟨.EcmptNEq, .EarrcmpAll, [none]⟩ : CScalarArrayCmp ℤ)
        false = none := by
  have hinterval : pcnstrIntervalFromScalarArrayCmp (⟨.EcmptNEq, .EarrcmpAny, [some 1, some 2]⟩ :
      CScalarArrayCmp ℤ) false =
        some (some ⟨[⟨none, .EriExcluded, some 1, .EriExcluded⟩,
        ⟨some 1, .EriExcluded, some 2, .EriExcluded⟩, ⟨some 2, .EriExcluded, none, .EriExcluded⟩],
        false⟩) := by decide +kernel
  have htrue : (⟨.EcmptNEq, .EarrcmpAny, [some 1, some 2]⟩ : CScalarArrayCmp ℤ).eval (some 1) =
      some true := by
    decide +kernel
  refine ⟨hinterval, htrue, ?_, by decide +kernel⟩
  rintro ⟨r, hr, hsound⟩
  obtain rfl := some.inj (hr.symm.trans hinterval)
  have hhas := (hsound _ rfl).2 (some 1) htrue
  simp [CConstraintInterval.Has, has_iff] at hhas

end PolemoDB.Gporca
