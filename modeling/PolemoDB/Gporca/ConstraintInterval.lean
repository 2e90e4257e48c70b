import PolemoDB.Gporca.Range

/-!
# Interval algebra (`gporca/libgpopt/src/base/CConstraintInterval.cpp`)

`PciUnion`, `PciIntersect`, `PciDifference` and `PciComplement` over arrays of ranges: loops with
one index into each array that append to the result or extend its last range. `none` is the
dereference of a null pointer. A pass of each loop advances one of the indices, so the sum of the
array sizes bounds the number of passes.

Principal results: `unionLoop_spec`, `intersectLoop_spec`, `differenceLoop_spec` (what each loop has
produced, from any position and any output), and `interval_algebra`.
-/

namespace PolemoDB.Gporca

open PolemoDB.Lib List CRange

universe u

/-! ## The class -/

/-- `CConstraintInterval`: the ranges of the column and whether null is included. -/
structure CConstraintInterval (α : Type u) where
  pdrgprng : List (CRange α)
  fIncludesNull : Bool
deriving DecidableEq

section Operations

variable {α : Type u} [LinearOrder α] (this pci : CConstraintInterval α)

def appendOrExtend (pdrgprng : List (CRange α)) : Option (CRange α) → Option (List (CRange α))
  | none => some pdrgprng
  | some prange =>
    match pdrgprng.getLast? with
    | none => some (pdrgprng ++ [prange])
    | some prangeLast =>
      match prngExtend prangeLast prange with
      | none => none
      | some none => some (pdrgprng ++ [prange])
      | some (some prangeNew) => some (pdrgprng.dropLast ++ [prangeNew])

def addRemainingRanges : List (CRange α) → List (CRange α) → Option (List (CRange α))
  | [], dest => some dest
  | prange :: src, dest => (appendOrExtend dest (some prange)).bind (addRemainingRanges src)

/-- The loop of `PciIntersect`, over what each index still has to visit. -/
def intersectLoop : ℕ → List (CRange α) → List (CRange α) → List (CRange α) →
    Option (List (CRange α))
  | n + 1, prangeThis :: fst, prangeOther :: snd, pdrgprngNew =>
    if fEndsAfter prangeOther prangeThis then
      (prngIntersect prangeThis prangeOther).bind fun prangeNew =>
        intersectLoop n fst (prangeOther :: snd) (pdrgprngNew ++ prangeNew.toList)
    else
      (prngIntersect prangeOther prangeThis).bind fun prangeNew =>
        intersectLoop n (prangeThis :: fst) snd (pdrgprngNew ++ prangeNew.toList)
  | 0, _ :: _, _ :: _, _ => none
  | _, _, _, pdrgprngNew => some pdrgprngNew

def pciIntersect : Option (CConstraintInterval α) :=
  (intersectLoop (this.pdrgprng.length + pci.pdrgprng.length) this.pdrgprng pci.pdrgprng []).map
    fun pdrgprngNew => ⟨pdrgprngNew, this.fIncludesNull && pci.fIncludesNull⟩

/-- The loop of `PciUnion` and the remaining ranges of both arrays. -/
def unionLoop : ℕ → List (CRange α) → List (CRange α) → List (CRange α) → Option (List (CRange α))
  | n + 1, prangeThis :: fst, prangeOther :: snd, pdrgprngNew =>
    if fEndsAfter prangeOther prangeThis then
      (appendOrExtend pdrgprngNew (prngDifferenceLeft prangeThis prangeOther)).bind
        (unionLoop n fst (prangeOther :: snd))
    else
      (appendOrExtend pdrgprngNew (prngDifferenceLeft prangeOther prangeThis)).bind
        (unionLoop n (prangeThis :: fst) snd)
  | 0, _ :: _, _ :: _, _ => none
  | _, fst, snd, pdrgprngNew => (addRemainingRanges fst pdrgprngNew).bind (addRemainingRanges snd)

def pciUnion : Option (CConstraintInterval α) :=
  (unionLoop (this.pdrgprng.length + pci.pdrgprng.length) this.pdrgprng pci.pdrgprng []).map
    fun pdrgprngNew => ⟨pdrgprngNew, this.fIncludesNull || pci.fIncludesNull⟩

/-- `PrangeDiffWithRightResidual`: the difference on the left, and the residual on the right. -/
def prangeDiffWithRightResidual (prangeFirst prangeSecond : CRange α) :
    Option (CRange α) × Option (CRange α) :=
  if fDisjointLeft prangeSecond prangeFirst then (none, none)
  else
    (if contains prangeFirst prangeSecond then prngDifferenceLeft prangeFirst prangeSecond
      else none, prngDifferenceRight prangeFirst prangeSecond)

/-- The loop of `PciDifference` and what follows it; the residual stands for the range at the first
index. -/
def differenceLoop : ℕ → List (CRange α) → List (CRange α) → Option (CRange α) → List (CRange α) →
    Option (List (CRange α))
  | n + 1, first :: fst, prangeOther :: snd, prangeResidual, pdrgprngNew =>
    let prangeThis := prangeResidual.getD first
    if fEndsWithOrAfter prangeOther prangeThis then
      (appendOrExtend pdrgprngNew (prngDifferenceLeft prangeThis prangeOther)).bind
        (differenceLoop n fst (prangeOther :: snd) none)
    else
      let (prangeNew, prangeResidual) := prangeDiffWithRightResidual prangeThis prangeOther
      (appendOrExtend pdrgprngNew prangeNew).bind
        (differenceLoop n (first :: fst) snd prangeResidual)
  | 0, _ :: _, _ :: _, _, _ => none
  | _, fst, _, prangeResidual, pdrgprngNew =>
    let fst := if prangeResidual.isSome then fst.tail else fst
    (appendOrExtend pdrgprngNew prangeResidual).bind (addRemainingRanges fst)

def pciDifference : Option (CConstraintInterval α) :=
  (differenceLoop (this.pdrgprng.length + pci.pdrgprng.length) this.pdrgprng pci.pdrgprng none
    []).map fun pdrgprngNew => ⟨pdrgprngNew, this.fIncludesNull && !pci.fIncludesNull⟩

/-- `PciUnbounded` of a type that is not boolean. -/
def pciUnbounded (fIncludesNull : Bool) : CConstraintInterval α :=
  ⟨[⟨none, .EriExcluded, none, .EriExcluded⟩], fIncludesNull⟩

def pciComplement (this : CConstraintInterval α) : Option (CConstraintInterval α) :=
  pciDifference (pciUnbounded true) this

theorem differenceLoop_nil (n : ℕ) (fst : List (CRange α)) (residual : Option (CRange α))
    (out : List (CRange α)) : differenceLoop n fst [] residual out =
      (appendOrExtend out residual).bind
        (addRemainingRanges (if residual.isSome then fst.tail else fst)) := by
  cases n <;> cases fst <;> rfl

end Operations

/-! ## Canonical arrays -/

section Canonical

variable {α : Type u} [LinearOrder α]

/-- A canonical array: no range is empty, and each ends before the next starts without touching it.
-/
structure Canon (l : List (CRange α)) : Prop where
  ok : ∀ r ∈ l, r.Ok
  apart : l.Pairwise fun r s => r.hi < s.lo

/-- The cut lies in one of the ranges. -/
abbrev Covers (l : List (CRange α)) (c : Cut α) : Prop := InRanges lo hi l c

theorem covers_cons (r : CRange α) (l : List (CRange α)) (c : Cut α) :
    Covers (r :: l) c ↔ InRange lo hi r c ∨ Covers l c := inRanges_cons r l c

theorem hi_lt_lo_iff (r s : CRange α) : r.hi < s.lo ↔ ∃ h l, r.pdatumRight = some h ∧
      s.pdatumLeft = some l ∧
      (h < l ∨ (h = l ∧ r.eriRight = .EriExcluded ∧ s.eriLeft = .EriExcluded)) := by
  obtain ⟨rl, rel, rr, rer⟩ := r
  obtain ⟨sl, sel, sr, ser⟩ := s
  cases rr <;> cases sl <;> cases rer <;> cases sel <;> simp [lo, hi, le_iff_lt_or_eq]

variable {l out fst : List (CRange α)} {r a b : CRange α} {A B : CConstraintInterval α}

theorem Canon.canonical (h : Canon l) : Canonical lo hi l := ⟨fun r hr => (h.ok r hr).lt, h.apart⟩

theorem canon_nil : Canon ([] : List (CRange α)) := ⟨by simp, List.Pairwise.nil⟩

theorem Canon.tail (h : Canon (r :: l)) : Canon l :=
  ⟨fun s hs => h.ok s (mem_cons_of_mem r hs), h.apart.of_cons⟩

theorem Canon.head (h : Canon (r :: l)) : r.Ok := h.ok r mem_cons_self

theorem Canon.append (h : Canon l) (hr : r.Ok) (hlt : ∀ s ∈ l, s.hi < r.lo) : Canon (l ++ [r]) :=
  ⟨forall_mem_append.2 ⟨h.ok, forall_mem_singleton.2 hr⟩,
    (h.canonical.append hr.lt hlt).apart⟩

/-- The result is a canonical array that covers exactly the cuts with the property. -/
def Yields (res : Option (List (CRange α))) (P : Cut α → Prop) : Prop :=
  ∃ out, res = some out ∧ Canon out ∧ ∀ c, Covers out c ↔ P c

theorem Canon.yields (h : Canon out) {P : Cut α → Prop} (hP : ∀ c, Covers out c ↔ P c) :
    Yields (some out) P := ⟨out, rfl, h, hP⟩

theorem Yields.congr {res : Option (List (CRange α))} {P Q : Cut α → Prop} (h : Yields res P)
    (hPQ : ∀ c, P c ↔ Q c) : Yields res Q := by
  obtain ⟨out, hres, hcan, hcov⟩ := h
  exact ⟨out, hres, hcan, fun c => (hcov c).trans (hPQ c)⟩

/-- **`AppendOrExtend`** adds a range that starts at or after the end of every range so far. -/
theorem appendOrExtend_some (hout : Canon out) (hr : r.Ok)
    (hle : ∀ o ∈ out, o.hi ≤ r.lo) : ∃ out', appendOrExtend out (some r) = some out' ∧ Canon out' ∧
      (∀ c, Covers out' c ↔ Covers out c ∨ InRange lo hi r c) ∧
      ∀ o ∈ out', o.hi ≤ r.hi := by
  have hends : ∀ o ∈ out, o.hi ≤ r.hi := fun o ho => (hle o ho).trans hr.lt.le
  rcases eq_nil_or_concat out with rfl | ⟨init, p, rfl⟩
  · refine ⟨[r], rfl, canon_nil.append hr (by simp), by simp, by simp⟩
  rw [concat_eq_append] at hout hle hends ⊢
  have hp : p.Ok := hout.ok p (by simp)
  have hlast : (init ++ [p]).getLast? = some p := by simp
  rw [appendOrExtend, hlast]
  dsimp only
  rcases prngExtend_spec hp hr (hle p (by simp)) with ⟨hext, hlt⟩ | ⟨d, hext, hd, htouch, hdlo,
    hdhi⟩
  · rw [hext]
    refine ⟨_, rfl, hout.append hr ?_, by simp [or_assoc],
      forall_mem_append.2 ⟨hends, forall_mem_singleton.2 le_rfl⟩⟩
    -- every range ends with or before the last one
    refine forall_mem_append.2 ⟨fun s hs => ?_, forall_mem_singleton.2 hlt⟩
    have hsp := (pairwise_append.1 hout.apart).2.2 s hs p (mem_singleton.2 rfl)
    exact hsp.trans (hp.lt.trans hlt)
  · rw [hext]
    rw [dropLast_concat]
    have hcan := hout.canonical.extend hdlo (by rw [hdhi]; exact hends p (by simp))
    refine ⟨_, rfl, ⟨forall_mem_append.2
      ⟨(forall_mem_append.1 hout.ok).1, forall_mem_singleton.2 hd⟩, hcan.apart⟩, fun c => ?_,
      forall_mem_append.2 ⟨(forall_mem_append.1 hends).1, forall_mem_singleton.2 hdhi.le⟩⟩
    · have hjoin : InRange lo hi d c ↔ InRange lo hi p c ∨ InRange lo hi r c := by
        unfold InRange
        rw [hdlo, hdhi, ← htouch]
        constructor
        · rintro ⟨h₁, h₂⟩
          exact (lt_or_ge c p.hi).imp (fun h => ⟨h₁, h⟩) (fun h => ⟨h, h₂⟩)
        · rintro (⟨h₁, h₂⟩ | ⟨h₁, h₂⟩)
          · exact ⟨h₁, h₂.trans_le (hends p (by simp))⟩
          · exact ⟨hp.lt.le.trans h₁, h₂⟩
      simp [hjoin, or_assoc]

/-- **`AddRemainingRanges`** adds a canonical array that starts after the output. -/
theorem addRemainingRanges_spec (src : List (CRange α)) {out : List (CRange α)} (hsrc : Canon src)
    (hout : Canon out) (hle : ∀ o ∈ out, ∀ r ∈ src, o.hi ≤ r.lo) :
    Yields (addRemainingRanges src out) fun c => Covers out c ∨ Covers src c := by
  induction src generalizing out with
  | nil => exact hout.yields (by simp)
  | cons r src ih =>
    obtain ⟨out₁, h₁, hcan₁, hcov₁, hhi₁⟩ :=
      appendOrExtend_some hout hsrc.head fun o ho => hle o ho r mem_cons_self
    rw [addRemainingRanges, h₁]
    refine (ih hsrc.tail hcan₁ fun o ho s hs => ?_).congr fun c => ?_
    · exact (hhi₁ o ho).trans (hsrc.canonical.hi_lt hs).le
    · rw [hcov₁, covers_cons, or_assoc]

theorem Canon.before (h : Canon (r :: l)) (hr : ∀ o ∈ out, o.hi ≤ r.lo) :
    ∀ o ∈ out, ∀ s ∈ r :: l, o.hi ≤ s.lo := by
  intro o ho s hs
  rcases mem_cons.1 hs with rfl | hs
  · exact hr o ho
  · exact (hr o ho).trans (h.head.lt.trans (h.canonical.hi_lt hs)).le

/-- The part of `a` before `b` starts, appended to an output that ends before `a`. -/
theorem differenceLeft_step (ha : a.Ok) (hout : Canon out) (hoa : ∀ o ∈ out, o.hi ≤ a.lo) :
    ∃ out', appendOrExtend out (prngDifferenceLeft a b) = some out' ∧ Canon out' ∧
      (∀ c, Covers out' c ↔ Covers out c ∨ (InRange lo hi a c ∧ c < b.lo)) ∧
      ∀ o ∈ out', o.hi ≤ a.hi ∧ (o ∈ out ∨ o.hi ≤ b.lo) := by
  rcases prngDifferenceLeft_spec ha b with ⟨hnone, hlo⟩ | ⟨d, hsome, hd, hdlo, hdhi⟩
  · refine ⟨out, by rw [hnone]; rfl, hout, fun c => ?_,
      fun o ho => ⟨(hoa o ho).trans ha.lt.le, .inl ho⟩⟩
    have hno : ¬ (InRange lo hi a c ∧ c < b.lo) := fun h =>
      absurd (h.2.trans_le hlo) (not_lt_of_ge h.1.1)
    exact (or_iff_left hno).symm
  obtain ⟨out', hout', hcan, hcov, hhi⟩ :=
    appendOrExtend_some hout hd fun o ho => by rw [hdlo]; exact hoa o ho
  refine ⟨out', by rw [hsome]; exact hout', hcan, fun c => ?_, fun o ho => ?_⟩
  · rw [hcov]
    unfold InRange
    rw [hdlo, hdhi, lt_min_iff, and_assoc]
  · have := hhi o ho
    rw [hdhi] at this
    exact ⟨this.trans (min_le_left _ _), .inr (this.trans (min_le_right _ _))⟩

/-! ## Union -/

/-- One pass of the loop of `PciUnion`: `a` ends no later than `b`, so that what is left of `a`
after its part before `b` lies in `b`. -/
theorem union_step {as bs : List (CRange α)} (ha : Canon (a :: as)) (hb : Canon (b :: bs))
    (hout : Canon out) (hab : a.hi ≤ b.hi) (hoa : ∀ o ∈ out, ∀ r ∈ a :: as, o.hi ≤ r.lo)
    (hob : ∀ o ∈ out, ∀ r ∈ b :: bs, o.hi ≤ r.lo) :
    ∃ out', appendOrExtend out (prngDifferenceLeft a b) = some out' ∧ Canon out' ∧
      (∀ o ∈ out', ∀ r ∈ as, o.hi ≤ r.lo) ∧ (∀ o ∈ out', ∀ r ∈ b :: bs, o.hi ≤ r.lo) ∧
      ∀ c, Covers out' c ∨ Covers as c ∨ Covers (b :: bs) c ↔
        Covers out c ∨ Covers (a :: as) c ∨ Covers (b :: bs) c := by
  obtain ⟨out', h, hcan, hcov, hhi⟩ :=
    differenceLeft_step (b := b) ha.head hout fun o ho => hoa o ho a mem_cons_self
  refine ⟨out', h, hcan, fun o ho r hr => (hhi o ho).1.trans (ha.canonical.hi_lt hr).le,
    hb.before fun o ho => (hhi o ho).2.elim (fun h => hob o h b mem_cons_self) id, fun c => ?_⟩
  have hsplit : (InRange lo hi a c ∧ c < b.lo) ∨ InRange lo hi b c ↔ InRange lo hi a c ∨
      InRange lo hi b c := by
    constructor
    · exact Or.imp_left And.left
    · rintro (h | h)
      · exact (lt_or_ge c b.lo).imp (fun hc => ⟨h, hc⟩) (fun hc => ⟨hc, h.2.trans_le hab⟩)
      · exact .inr h
  rw [hcov, covers_cons, covers_cons]
  calc
    (Covers out c ∨ InRange lo hi a c ∧ c < b.lo) ∨ Covers as c ∨ InRange lo hi b c ∨ Covers bs c
    _ ↔ Covers out c ∨ ((InRange lo hi a c ∧ c < b.lo) ∨ InRange lo hi b c) ∨ Covers as c ∨
        Covers bs c := by simp only [or_assoc, or_left_comm]
    _ ↔ _ := by rw [hsplit]; simp only [or_assoc, or_left_comm]

/-- **The loop of `PciUnion`** from any position: the output so far lies before both rests. -/
theorem unionLoop_spec (n : ℕ) {fst snd out : List (CRange α)} (hlen : fst.length + snd.length ≤ n)
    (hfst : Canon fst) (hsnd : Canon snd) (hout : Canon out)
    (hof : ∀ o ∈ out, ∀ r ∈ fst, o.hi ≤ r.lo) (hos : ∀ o ∈ out, ∀ r ∈ snd, o.hi ≤ r.lo) :
    Yields (unionLoop n fst snd out) fun c => Covers out c ∨ Covers fst c ∨ Covers snd c := by
  induction n generalizing fst snd out with
  | zero =>
    obtain rfl : fst = [] := length_eq_zero_iff.1 (by omega)
    obtain rfl : snd = [] := length_eq_zero_iff.1 (by omega)
    exact hout.yields (by simp)
  | succ n ih =>
    cases fst with
    | nil => exact (addRemainingRanges_spec snd hsnd hout hos).congr (by simp)
    | cons a fst =>
      cases snd with
      | nil =>
        obtain ⟨out', h, hcan, hcov⟩ := addRemainingRanges_spec (a :: fst) hfst hout hof
        exact ⟨out', Option.bind_eq_some_iff.2 ⟨out', h, rfl⟩, hcan, by simpa using hcov⟩
      | cons b snd =>
        rw [length_cons, length_cons] at hlen
        rw [unionLoop]
        by_cases hend : fEndsAfter b a = true
        · obtain ⟨out₁, h₁, hcan₁, hof₁, hos₁, hcov₁⟩ :=
            union_step hfst hsnd hout (fEndsAfter_le hend) hof hos
          rw [if_pos hend, h₁]
          exact (ih (by rw [length_cons]; omega) hfst.tail hsnd hcan₁ hof₁ hos₁).congr hcov₁
        obtain ⟨out₁, h₁, hcan₁, hos₁, hof₁, hcov₁⟩ :=
          union_step hsnd hfst hout (not_fEndsAfter_le hend) hos hof
        rw [if_neg hend, h₁]
        refine (ih (by rw [length_cons]; omega) hfst hsnd.tail hcan₁ hof₁ hos₁).congr fun c => ?_
        rw [or_comm (a := Covers (a :: fst) c), hcov₁ c, or_comm (a := Covers (b :: snd) c)]

/-! ## Intersection -/

/-- One pass of the loop of `PciIntersect`: `a` ends no later than `b`, so the rest of the array of
`b` has nothing in common with `a`. -/
theorem intersect_step {as bs : List (CRange α)} (ha : Canon (a :: as)) (hb : Canon (b :: bs))
    (hout : Canon out) (hsep : ∀ o ∈ out, (∀ r ∈ a :: as, o.hi < r.lo) ∨ ∀ r ∈ b :: bs, o.hi < r.lo)
    (hab : a.hi ≤ b.hi) {res : Option (CRange α)}
    (hres : (res = none ∧ (a.hi ≤ b.lo ∨ b.hi ≤ a.lo)) ∨
      ∃ d, res = some d ∧ d.Ok ∧ d.lo = max a.lo b.lo ∧ d.hi = min a.hi b.hi) :
    Canon (out ++ res.toList) ∧
      (∀ o ∈ out ++ res.toList, (∀ r ∈ as, o.hi < r.lo) ∨ ∀ r ∈ b :: bs, o.hi < r.lo) ∧
      ∀ c, Covers (out ++ res.toList) c ∨ (Covers as c ∧ Covers (b :: bs) c) ↔
        Covers out c ∨ (Covers (a :: as) c ∧ Covers (b :: bs) c) := by
  have hsep' : ∀ o ∈ out, (∀ r ∈ as, o.hi < r.lo) ∨ ∀ r ∈ b :: bs, o.hi < r.lo := fun o ho =>
    (hsep o ho).imp_left fun h r hr => h r (mem_cons_of_mem _ hr)
  -- `a` meets only `b`
  have hmeet : ∀ c, InRange lo hi a c → ¬ Covers bs c := fun c hc hbs =>
    absurd (hb.canonical.hi_lt_of_inRanges hbs) (not_lt_of_ge (hc.2.le.trans hab))
  rcases hres with ⟨rfl, hdis⟩ | ⟨d, rfl, hd, hdlo, hdhi⟩
  · refine ⟨by simpa using hout, by simpa using hsep', fun c => ?_⟩
    have hno : InRange lo hi a c → ¬ InRange lo hi b c := by
      rintro ⟨h₁, h₂⟩ ⟨h₃, h₄⟩
      rcases hdis with h | h
      · exact absurd (h₂.trans_le h) (not_lt_of_ge h₃)
      · exact absurd (h₄.trans_le h) (not_lt_of_ge h₁)
    have hnot : ¬ (InRange lo hi a c ∧ (InRange lo hi b c ∨ Covers bs c)) :=
      fun h => h.2.elim (hno h.1) (hmeet c h.1)
    simp only [Option.toList_none, append_nil, covers_cons]
    rw [or_and_right, or_iff_right hnot]
  · refine ⟨hout.append hd fun o ho => ?_, fun o ho => ?_, fun c => ?_⟩
    · rw [hdlo]
      rcases hsep o ho with h | h
      · exact (h a mem_cons_self).trans_le (le_max_left _ _)
      · exact (h b mem_cons_self).trans_le (le_max_right _ _)
    · rcases mem_append.1 ho with ho | ho
      · exact hsep' o ho
      obtain rfl : o = d := by simpa using ho
      refine .inl fun r hr => ?_
      rw [hdhi]
      exact (min_le_left _ _).trans_lt (ha.canonical.hi_lt hr)
    · have hd' : InRange lo hi d c ↔ InRange lo hi a c ∧ InRange lo hi b c := by
        unfold InRange
        rw [hdlo, hdhi, max_le_iff, lt_min_iff]
        exact and_and_and_comm
      have hab' : InRange lo hi a c ∧ (InRange lo hi b c ∨ Covers bs c) ↔
          InRange lo hi a c ∧ InRange lo hi b c :=
        and_congr_right fun hac => or_iff_left (hmeet c hac)
      simp only [Option.toList_some, inRanges_append, inRanges_cons, inRanges_nil, or_false, hd']
      rw [or_and_right, hab', or_assoc]

/-- **The loop of `PciIntersect`** from any position: each output range lies strictly before one of
the rests. -/
theorem intersectLoop_spec (n : ℕ) {fst snd out : List (CRange α)}
    (hlen : fst.length + snd.length ≤ n) (hfst : Canon fst) (hsnd : Canon snd) (hout : Canon out)
    (hsep : ∀ o ∈ out, (∀ r ∈ fst, o.hi < r.lo) ∨ ∀ r ∈ snd, o.hi < r.lo) :
    Yields (intersectLoop n fst snd out) fun c => Covers out c ∨ Covers fst c ∧ Covers snd c := by
  fun_induction intersectLoop n fst snd out with
  | case1 n a fst b snd out hend ih =>
    obtain ⟨res, hres, hspec⟩ := prngIntersect_spec hfst.head hsnd.head
    obtain ⟨hcan₁, hsep₁, hcov₁⟩ := intersect_step hfst hsnd hout hsep (fEndsAfter_le hend) hspec
    rw [hres]
    exact (ih res (by simp at hlen ⊢; omega) hfst.tail hsnd hcan₁ hsep₁).congr hcov₁
  | case2 n a fst b snd out hend ih =>
    obtain ⟨res, hres, hspec⟩ := prngIntersect_spec hsnd.head hfst.head
    obtain ⟨hcan₁, hsep₁, hcov₁⟩ :=
      intersect_step hsnd hfst hout (fun o ho => (hsep o ho).symm) (not_fEndsAfter_le hend) hspec
    rw [hres]
    refine (ih res (by simp at hlen ⊢; omega) hfst hsnd.tail hcan₁
      fun o ho => (hsep₁ o ho).symm).congr fun c => ?_
    rw [and_comm, hcov₁ c, and_comm]
  | case3 => exact absurd hlen (by simp)
  | case4 n fst snd out hmore hzero =>
    rcases fst with _ | ⟨a, fst⟩
    · exact hout.yields (by simp)
    rcases snd with _ | ⟨b, snd⟩
    · exact hout.yields (by simp)
    cases n with
    | zero => exact absurd rfl (hzero a fst b snd rfl rfl)
    | succ n => exact absurd rfl (hmore n a fst b snd rfl rfl)

/-! ## Difference -/

/-- If `a` ends no later than `b`, only its part before `b` is in none of the subtracted ranges. -/
theorem before_iff_not_covers {snd : List (CRange α)} (hsnd : Canon (b :: snd))
    (hab : a.hi ≤ b.hi) (c : Cut α) : InRange lo hi a c ∧ c < b.lo ↔
      InRange lo hi a c ∧ ¬ Covers (b :: snd) c := by
  refine and_congr_right fun hac => ?_
  rw [covers_cons, not_or]
  constructor
  · intro hlt
    refine ⟨fun h => absurd hlt (not_lt_of_ge h.1), fun h => ?_⟩
    exact absurd (hlt.trans (hsnd.head.lt.trans (hsnd.canonical.hi_lt_of_inRanges h))) (lt_irrefl c)
  · rintro ⟨hnot, -⟩
    by_contra hge
    exact hnot ⟨le_of_not_gt hge, hac.2.trans_le hab⟩

theorem not_inRange_of_before (hcan : Canon (a :: fst))
    (hle : b.hi ≤ a.lo) {c : Cut α} (hc : Covers (a :: fst) c) : ¬ InRange lo hi b c := by
  intro hbc
  rcases (covers_cons _ _ _).1 hc with hc | hc
  · exact absurd (hbc.2.trans_le hle) (not_lt_of_ge hc.1)
  · exact absurd ((hbc.2.trans_le (hle.trans hcan.head.lt.le)).trans
      (hcan.canonical.hi_lt_of_inRanges hc)) (lt_irrefl c)

/-- A pass of the loop of `PciDifference` in which `b` cuts `a` into a part before it and a residual
after it. -/
theorem diffWithRightResidual_spec (ha : a.Ok) (hb : b.Ok)
    (hout : Canon out) (hoa : ∀ o ∈ out, o.hi ≤ a.lo) (hab : b.hi < a.hi) (hlt : a.lo < b.hi) :
    ∃ new d, prangeDiffWithRightResidual a b = (new, some d) ∧ d.Ok ∧ d.lo = b.hi ∧ d.hi = a.hi ∧
      ∃ out', appendOrExtend out new = some out' ∧ Canon out' ∧
        (∀ c, Covers out' c ↔ Covers out c ∨ (InRange lo hi a c ∧ c < b.lo)) ∧
        ∀ o ∈ out', o.hi ≤ b.hi := by
  have hdis : ¬ fDisjointLeft b a = true := fun h =>
    absurd hlt (not_lt_of_ge ((fDisjointLeft_iff b a).1 h))
  rcases prngDifferenceRight_spec ha b with ⟨-, hle⟩ | ⟨d, hd, hdok, hdlo, hdhi⟩
  · exact absurd hab (not_lt_of_ge hle)
  rw [max_eq_right hlt.le] at hdlo
  refine ⟨_, d, by rw [prangeDiffWithRightResidual, if_neg hdis, hd], hdok, hdlo, hdhi, ?_⟩
  by_cases hcont : contains a b = true
  · rw [if_pos hcont]
    obtain ⟨out', h, hc, hcov, hhi⟩ := differenceLeft_step (b := b) ha hout hoa
    exact ⟨out', h, hc, hcov, fun o ho =>
      (hhi o ho).2.elim (fun h => (hoa o h).trans hlt.le) (fun h => h.trans hb.lt.le)⟩
  -- `b` starts first: there is no part before it
  rw [if_neg hcont]
  rw [contains_iff] at hcont
  have hlo : b.lo < a.lo := lt_of_not_ge fun h => hcont ⟨h, hab.le⟩
  refine ⟨out, rfl, hout, fun c => ?_, fun o ho => (hoa o ho).trans hlt.le⟩
  have hno : ¬ (InRange lo hi a c ∧ c < b.lo) := fun h =>
    absurd (h.2.trans hlo) (not_lt_of_ge h.1.1)
  exact ⟨.inl, fun h => h.resolve_right hno⟩

/-- What is left of `a` and the rest of its array after `b`: the part of `a` before `b`, and the
residual and the rest without the later ranges. -/
theorem residual_covers_iff {d : CRange α} {snd : List (CRange α)} (hcan : Canon (a :: fst))
    (hsnd : Canon (b :: snd)) (hab : b.hi < a.hi) (hlt : a.lo < b.hi) (hdlo : d.lo = b.hi)
    (hdhi : d.hi = a.hi) (c : Cut α) : Covers (a :: fst) c ∧ ¬ Covers (b :: snd) c ↔
      (InRange lo hi a c ∧ c < b.lo) ∨ (Covers (d :: fst) c ∧ ¬ Covers snd c) := by
  have hdiff : InRange lo hi a c ∧ ¬ InRange lo hi b c ↔
      (InRange lo hi a c ∧ c < b.lo) ∨ InRange lo hi d c := by
    unfold InRange
    rw [hdlo, hdhi]
    constructor
    · rintro ⟨hac, hnot⟩
      rcases lt_or_ge c b.lo with h | h
      · exact .inl ⟨hac, h⟩
      · exact .inr ⟨le_of_not_gt fun h' => hnot ⟨h, h'⟩, hac.2⟩
    · rintro (⟨hac, h⟩ | ⟨h₁, h₂⟩)
      · exact ⟨hac, fun hbc => absurd h (not_lt_of_ge hbc.1)⟩
      · exact ⟨⟨hlt.le.trans h₁, h₂⟩, fun hbc => absurd hbc.2 (not_lt_of_ge h₁)⟩
  have hbefore : c < b.lo → ¬ Covers snd c := fun h h' =>
    absurd (h.trans (hsnd.head.lt.trans (hsnd.canonical.hi_lt_of_inRanges h'))) (lt_irrefl c)
  have hafter : Covers fst c → ¬ InRange lo hi b c := fun h hbc =>
    absurd (hbc.2.trans (hab.trans (hcan.canonical.hi_lt_of_inRanges h))) (lt_irrefl c)
  rw [covers_cons, covers_cons, covers_cons, not_or]
  constructor
  · rintro ⟨h | h, hb, hs⟩
    · exact (hdiff.1 ⟨h, hb⟩).imp_right fun h => ⟨.inl h, hs⟩
    · exact .inr ⟨.inr h, hs⟩
  rintro (h | ⟨h | h, hs⟩)
  · exact ⟨.inl h.1, (hdiff.2 (.inl h)).2, hbefore h.2⟩
  · have := hdiff.2 (.inr h)
    exact ⟨.inl this.1, this.2, hs⟩
  · exact ⟨.inr h, hafter h, hs⟩

/-- What the first index still has to visit, with the residual in the place of its first range. -/
inductive Rest : List (CRange α) → Option (CRange α) → List (CRange α) → Prop where
  | whole (fst : List (CRange α)) : Rest fst none fst
  | residual (first r : CRange α) (fst : List (CRange α)) : Rest (first :: fst) (some r) (r :: fst)

/-- A residual lies at the end of the last subtracted range, before all that is still to subtract.
-/
def ResidualBefore (residual : Option (CRange α)) (snd : List (CRange α)) : Prop :=
  ∀ r, residual = some r → ∀ s ∈ snd, r.lo < s.lo

theorem differenceLoop_rest {rest : List (CRange α)} {residual : Option (CRange α)}
    (hrest : Rest fst residual rest) (hcan : Canon rest) (hout : Canon out)
    (hle : ∀ o ∈ out, ∀ r ∈ rest, o.hi ≤ r.lo) :
    Yields ((appendOrExtend out residual).bind
        (addRemainingRanges (if residual.isSome then fst.tail else fst)))
      fun c => Covers out c ∨ Covers rest c := by
  cases hrest with
  | whole => exact addRemainingRanges_spec fst hcan hout hle
  | residual first r fst => exact addRemainingRanges_spec (r :: fst) hcan hout hle

/-- **The loop of `PciDifference`** from any position: the output lies before the rest. -/
theorem differenceLoop_spec (n : ℕ) {fst snd rest out : List (CRange α)}
    {residual : Option (CRange α)} (hlen : fst.length + snd.length ≤ n)
    (hrest : Rest fst residual rest) (hcan : Canon rest) (hsnd : Canon snd) (hout : Canon out)
    (hle : ∀ o ∈ out, ∀ r ∈ rest, o.hi ≤ r.lo) (hbefore : ResidualBefore residual snd) :
    Yields (differenceLoop n fst snd residual out) fun c =>
      Covers out c ∨ (Covers rest c ∧ ¬ Covers snd c) := by
  induction n generalizing fst snd rest out residual with
  | zero =>
    obtain rfl : fst = [] := length_eq_zero_iff.1 (by omega)
    obtain rfl : snd = [] := length_eq_zero_iff.1 (by omega)
    exact (differenceLoop_rest hrest hcan hout hle).congr (by simp)
  | succ n ih =>
    cases snd with
    | nil =>
      rw [differenceLoop_nil]
      exact (differenceLoop_rest hrest hcan hout hle).congr (by simp)
    | cons b snd =>
      cases fst with
      | nil =>
        cases hrest
        exact hout.yields (by simp)
      | cons first fst =>
        rw [length_cons, length_cons] at hlen
        -- the range of this pass, whether it is a residual or not
        obtain ⟨a, ha, rfl⟩ : ∃ a, residual.getD first = a ∧ rest = a :: fst := by
          cases hrest
          · exact ⟨first, rfl, rfl⟩
          · exact ⟨_, rfl, rfl⟩
        have hoa := fun o ho => hle o ho a mem_cons_self
        rw [differenceLoop, ha]
        by_cases hend : fEndsWithOrAfter b a = true
        · obtain ⟨out₁, h₁, hcan₁, hcov₁, hhi₁⟩ := differenceLeft_step (b := b) hcan.head hout hoa
          rw [if_pos hend, h₁]
          refine (ih (by rw [length_cons]; omega) (Rest.whole fst) hcan.tail hsnd hcan₁
            (fun o ho r hr => (hhi₁ o ho).1.trans (hcan.canonical.hi_lt hr).le)
            (fun r hr => absurd hr (by simp))).congr fun c => ?_
          rw [hcov₁, before_iff_not_covers hsnd ((fEndsWithOrAfter_iff b a).1 hend),
            covers_cons a fst, or_and_right, or_assoc]
        · rw [if_neg hend]
          have hab : b.hi < a.hi := lt_of_not_ge fun h => hend ((fEndsWithOrAfter_iff b a).2 h)
          rcases le_or_gt b.hi a.lo with hle' | hlt
          · -- `b` lies before `a`, which then is no residual
            have hnone : residual = none := by
              cases residual with
              | none => rfl
              | some r =>
                obtain rfl : r = a := ha
                exact absurd (hbefore r rfl b mem_cons_self)
                  (not_lt_of_ge (hsnd.head.lt.le.trans hle'))
            subst hnone
            obtain rfl : first = a := ha
            rw [prangeDiffWithRightResidual, if_pos ((fDisjointLeft_iff b first).2 hle')]
            refine (ih (by rw [length_cons]; omega) (Rest.whole _) hcan hsnd.tail hout hle
              (fun r hr => absurd hr (by simp))).congr fun c => ?_
            have hnot := @not_inRange_of_before α _ fst first b hcan hle' c
            rw [covers_cons b snd, not_or]
            exact or_congr_right (and_congr_right fun hc => (and_iff_right (hnot hc)).symm)
          · obtain ⟨new, d, hdiff, hdok, hdlo, hdhi, out₁, h₁, hcan₁, hcov₁, hhi₁⟩ :=
              diffWithRightResidual_spec hcan.head hsnd.head hout hoa hab hlt
            rw [hdiff]
            dsimp only
            rw [h₁]
            have hcan' : Canon (d :: fst) := by
              refine ⟨forall_mem_cons.2 ⟨hdok, hcan.tail.ok⟩,
                pairwise_cons.2 ⟨fun r hr => ?_, hcan.tail.apart⟩⟩
              rw [hdhi]
              exact hcan.canonical.hi_lt hr
            refine (ih (by rw [length_cons]; omega) (Rest.residual first d fst) hcan' hsnd.tail
              hcan₁ (hcan'.before fun o ho => (hhi₁ o ho).trans hdlo.ge) fun r hr s hs => ?_).congr
                fun c => ?_
            · obtain rfl := Option.some.inj hr
              rw [hdlo]
              exact hsnd.canonical.hi_lt hs
            · rw [hcov₁, residual_covers_iff hcan hsnd hab hlt hdlo hdhi, or_assoc]

/-! ## The four operations -/

def CConstraintInterval.Canonical (I : CConstraintInterval α) : Prop := Canon I.pdrgprng

/-- The value, null or not, lies in the interval. -/
def CConstraintInterval.Has (I : CConstraintInterval α) : Option α → Prop
  | none => I.fIncludesNull = true
  | some x => ∃ r ∈ I.pdrgprng, r.Has x

theorem has_some_iff (I : CConstraintInterval α) (x : α) :
    I.Has (some x) ↔ Covers I.pdrgprng (Cut.before x) := Iff.rfl

theorem pciUnion_spec (hA : A.Canonical) (hB : B.Canonical) :
    ∃ U, pciUnion A B = some U ∧ U.Canonical ∧ ∀ v, U.Has v ↔ A.Has v ∨ B.Has v := by
  obtain ⟨out, h, hcan, hcov⟩ := unionLoop_spec _ le_rfl hA hB canon_nil (by simp) (by simp)
  refine ⟨⟨out, A.fIncludesNull || B.fIncludesNull⟩, by rw [pciUnion, h]; rfl, hcan, fun v => ?_⟩
  cases v with
  | none => exact Bool.or_eq_true_iff
  | some x => simpa only [has_some_iff, inRanges_nil, false_or] using hcov (Cut.before x)

theorem pciIntersect_spec (hA : A.Canonical) (hB : B.Canonical) :
    ∃ I, pciIntersect A B = some I ∧ I.Canonical ∧ ∀ v, I.Has v ↔ A.Has v ∧ B.Has v := by
  obtain ⟨out, h, hcan, hcov⟩ := intersectLoop_spec _ le_rfl hA hB canon_nil (by simp)
  refine ⟨⟨out, A.fIncludesNull && B.fIncludesNull⟩, by rw [pciIntersect, h]; rfl, hcan,
    fun v => ?_⟩
  cases v with
  | none => exact Bool.and_eq_true_iff
  | some x => simpa only [has_some_iff, inRanges_nil, false_or] using hcov (Cut.before x)

theorem pciDifference_spec (hA : A.Canonical) (hB : B.Canonical) :
    ∃ D, pciDifference A B = some D ∧ D.Canonical ∧ ∀ v, D.Has v ↔ A.Has v ∧ ¬ B.Has v := by
  obtain ⟨out, h, hcan, hcov⟩ :=
    differenceLoop_spec _ le_rfl (Rest.whole A.pdrgprng) hA hB canon_nil
    (by simp) (fun r hr => absurd hr (by simp))
  refine ⟨⟨out, A.fIncludesNull && !B.fIncludesNull⟩, by rw [pciDifference, h]; rfl, hcan,
    fun v => ?_⟩
  cases v with
  | none =>
    show (A.fIncludesNull && !B.fIncludesNull) = true ↔ A.fIncludesNull = true ∧
      ¬ B.fIncludesNull = true
    simp
  | some x => simpa only [has_some_iff, inRanges_nil, false_or] using hcov (Cut.before x)

theorem pciUnbounded_spec (n : Bool) : (pciUnbounded n : CConstraintInterval α).Canonical ∧
      ∀ x : α, (pciUnbounded n : CConstraintInterval α).Has (some x) := by
  have hok : (⟨none, .EriExcluded, none, .EriExcluded⟩ : CRange α).Ok := by simp [ok_iff]
  refine ⟨canon_nil.append hok (by simp), fun x => ⟨_, mem_singleton.2 rfl, ?_⟩⟩
  simp [has_iff]

theorem pciComplement_spec (hA : A.Canonical) :
    ∃ N, pciComplement A = some N ∧ N.Canonical ∧ ∀ v, N.Has v ↔ ¬ A.Has v := by
  obtain ⟨hcan, hall⟩ := @pciUnbounded_spec α _ true
  obtain ⟨N, h, hN, hhas⟩ := pciDifference_spec hcan hA
  refine ⟨N, h, hN, fun v => (hhas v).trans (and_iff_right ?_)⟩
  cases v with
  | none => rfl
  | some x => exact hall x

/-- **The interval algebra**: on canonical intervals the four operations return canonical intervals
that contain a value, null included, exactly if the set operation does. -/
theorem interval_algebra (A B : CConstraintInterval α) (hA : A.Canonical) (hB : B.Canonical) :
    (∃ U, pciUnion A B = some U ∧ U.Canonical ∧
      (∀ x, U.Has (some x) ↔ A.Has (some x) ∨ B.Has (some x)) ∧
      U.fIncludesNull = (A.fIncludesNull || B.fIncludesNull)) ∧
    (∃ I, pciIntersect A B = some I ∧ I.Canonical ∧
      (∀ x, I.Has (some x) ↔ A.Has (some x) ∧ B.Has (some x)) ∧
      I.fIncludesNull = (A.fIncludesNull && B.fIncludesNull)) ∧
    (∃ D, pciDifference A B = some D ∧ D.Canonical ∧
      (∀ x, D.Has (some x) ↔ A.Has (some x) ∧ ¬ B.Has (some x)) ∧
      D.fIncludesNull = (A.fIncludesNull && !B.fIncludesNull)) ∧
    (∃ N, pciComplement A = some N ∧ N.Canonical ∧ (∀ x, N.Has (some x) ↔ ¬ A.Has (some x)) ∧
      N.fIncludesNull = !A.fIncludesNull) := by
  obtain ⟨U, hU, hUc, hUh⟩ := pciUnion_spec hA hB
  obtain ⟨I, hI, hIc, hIh⟩ := pciIntersect_spec hA hB
  obtain ⟨D, hD, hDc, hDh⟩ := pciDifference_spec hA hB
  obtain ⟨N, hN, hNc, hNh⟩ := pciComplement_spec hA
  refine ⟨⟨U, hU, hUc, fun x => hUh (some x), Bool.eq_iff_iff.2 ?_⟩,
    ⟨I, hI, hIc, fun x => hIh (some x), Bool.eq_iff_iff.2 ?_⟩,
    ⟨D, hD, hDc, fun x => hDh (some x), Bool.eq_iff_iff.2 ?_⟩,
    ⟨N, hN, hNc, fun x => hNh (some x), Bool.eq_iff_iff.2 ?_⟩⟩
  · simpa [CConstraintInterval.Has] using hUh none
  · simpa [CConstraintInterval.Has] using hIh none
  · simpa [CConstraintInterval.Has] using hDh none
  · simpa [CConstraintInterval.Has] using hNh none

end Canonical

/-- `[0, 4)` with null, without `(-∞, 1]` and `(2, 4)`, is `(1, 2]` with null. -/
theorem interval_algebra_halfOpen :
    let A : CConstraintInterval ℤ := ⟨[⟨some 0, .EriIncluded, some 4, .EriExcluded⟩], true⟩
    let B : CConstraintInterval ℤ :=
      ⟨[⟨none, .EriExcluded, some 1, .EriIncluded⟩, ⟨some 2, .EriExcluded, some 4, .EriExcluded⟩],
      false⟩
    A.Canonical ∧ B.Canonical ∧ pciDifference A B =
      some ⟨[⟨some 1, .EriExcluded, some 2, .EriIncluded⟩], true⟩ ∧
      ∃ D, pciDifference A B = some D ∧ D.Canonical ∧
        (∀ x, D.Has (some x) ↔ A.Has (some x) ∧ ¬ B.Has (some x)) ∧
        D.fIncludesNull = (A.fIncludesNull && !B.fIncludesNull) := by
  intro A B
  have hA : A.Canonical := ⟨by simp [A, ok_iff], by simp [A]⟩
  have hB : B.Canonical := ⟨by simp [B, ok_iff], by simp [B, hi_lt_lo_iff]⟩
  exact ⟨hA, hB, by decide +kernel, (interval_algebra A B hA hB).2.2.1⟩

end PolemoDB.Gporca
