import PolemoDB.Gporca.ConstraintInterval
import PolemoDB.Lib.Kleene

/-!
# Intervals from scalar expressions (`gporca/libgpopt/src/base/CConstraintInterval.cpp`)

`PciIntervalFromScalarExpr` derives from a predicate over one column the values it may hold for. The
outer `Option` of the result is as in the interval algebra; the inner `none` is the `nullptr` that
says no interval could be created. `OR` passes a `nullptr` on, `AND` drops the members that give
one.

`PciIntervalFromScalarBoolOp` and `PciIntervalFromScalarBooleanTest` take the complement of what the
child derives. A child whose `AND` dropped a member holds for fewer values than its interval has, so
the complement loses values.

Principal results: `derive_spec` (the interval has exactly the values for which the predicate
without the dropped members holds), `derive_sound_iff`, and `keeps_of_lossless` (no value is lost if
no `AND` under an odd number of negations drops a member).
-/

namespace PolemoDB.Gporca

open PolemoDB.Lib List CConstraintInterval

universe u

/-! ## Predicates over one column -/

/-- `IMDType::ECmpType`, without `EcmptOther`: an operator of that type is not understood. -/
inductive ECmpType where
  | EcmptEq
  | EcmptNEq
  | EcmptL
  | EcmptLEq
  | EcmptG
  | EcmptGEq
  | EcmptIDF
deriving DecidableEq

inductive EBoolTest where
  | EbtIsTrue
  | EbtIsNotTrue
  | EbtIsFalse
  | EbtIsNotFalse
  | EbtIsUnknown
  | EbtIsNotUnknown
deriving DecidableEq

/-- A scalar expression over one column that is not boolean. An operator has at least one child. -/
inductive Pred (α : Type u) where
  /-- An expression the derivation does not understand: any function of the column. -/
  | other (f : Option α → Option Bool)
  | cmp (cmp_type : { t : ECmpType // t ≠ .EcmptIDF }) (datum : α)
  | isDistinctFrom (datum : Option α)
  | isNull
  | const (value : Bool)
  | booleanTest (ebt : EBoolTest) (child : Pred α)
  | not (child : Pred α)
  | and (child : Pred α) (children : List (Pred α))
  | or (child : Pred α) (children : List (Pred α))

open PolemoDB.Gporca.Pred

@[elab_as_elim]
theorem Pred.members_induction {α : Type u} {motive : Pred α → Prop} (e : Pred α)
    (other : ∀ f, motive (.other f)) (cmp : ∀ t c, motive (.cmp t c))
    (isDistinctFrom : ∀ c, motive (.isDistinctFrom c)) (isNull : motive .isNull)
    (const : ∀ b, motive (.const b)) (booleanTest : ∀ t e, motive e → motive (.booleanTest t e))
    (not : ∀ e, motive e → motive (.not e))
    (and : ∀ e es, motive e → (∀ x ∈ es, motive x) → motive (.and e es))
    (or : ∀ e es, motive e → (∀ x ∈ es, motive x) → motive (.or e es)) : motive e :=
  @Pred.rec α motive (fun es => ∀ x ∈ es, motive x) other cmp isDistinctFrom isNull const
    booleanTest not and or (by simp) (fun _ _ he hes => forall_mem_cons.2 ⟨he, hes⟩) e

section Eval

variable {α : Type u} [LinearOrder α] (r : Option Bool)

/-- The comparison of two values that are not null. -/
def ECmpType.eval (x c : α) : ECmpType → Bool
  | .EcmptEq => x = c
  | .EcmptNEq => x ≠ c
  | .EcmptL => x < c
  | .EcmptLEq => x ≤ c
  | .EcmptG => c < x
  | .EcmptGEq => c ≤ x
  | .EcmptIDF => x ≠ c

def EBoolTest.eval : EBoolTest → Bool
  | .EbtIsTrue => r = some true
  | .EbtIsNotTrue => r ≠ some true
  | .EbtIsFalse => r = some false
  | .EbtIsNotFalse => r ≠ some false
  | .EbtIsUnknown => r = none
  | .EbtIsNotUnknown => r ≠ none

/-! How each test reads the unknown. -/

theorem EBoolTest.isTrue_eval : EbtIsTrue.eval r = r.getD false := by
  rcases r with _ | _ | _ <;> rfl

theorem EBoolTest.isNotFalse_eval : EbtIsNotFalse.eval r = r.getD true := by
  rcases r with _ | _ | _ <;> rfl

theorem EBoolTest.isNotTrue_eval : EbtIsNotTrue.eval r = !r.getD false := by
  rcases r with _ | _ | _ <;> rfl

theorem EBoolTest.isFalse_eval : EbtIsFalse.eval r = !r.getD true := by
  rcases r with _ | _ | _ <;> rfl

mutual

/-- SQL's value of the predicate for a value of the column. -/
def Pred.eval (v : Option α) : Pred α → Option Bool
  | .other f => f v
  | .cmp t c => v.map fun x => t.1.eval x c
  | .isDistinctFrom c => some (decide (v ≠ c))
  | .isNull => some v.isNone
  | .const b => some b
  | .booleanTest t e => some (t.eval (e.eval v))
  | .not e => not3 (e.eval v)
  | .and e es => conj3 (e.eval v :: evalAll v es)
  | .or e es => disj3 (e.eval v :: evalAll v es)

def evalAll (v : Option α) : List (Pred α) → List (Option Bool)
  | [] => []
  | e :: es => e.eval v :: evalAll v es

end

theorem evalAll_eq (v : Option α) (es : List (Pred α)) : evalAll v es = es.map (eval v) := by
  induction es with
  | nil => rfl
  | cons e es ih => rw [evalAll, ih, map_cons]

theorem eval_and_getD (v : Option α) (e : Pred α) (es : List (Pred α)) (d : Bool) :
    ((and e es).eval v).getD d = (e :: es).all fun x => (x.eval v).getD d := by
  rw [eval, evalAll_eq, ← map_cons, conj3_getD, all_map]
  rfl

theorem eval_or_getD (v : Option α) (e : Pred α) (es : List (Pred α)) (d : Bool) :
    ((or e es).eval v).getD d = (e :: es).any fun x => (x.eval v).getD d := by
  rw [eval, evalAll_eq, ← map_cons, disj3_getD, any_map]
  rfl

/-- The predicate lets the row through: it is true or, if nulls are inferred as true, not false. -/
def Qualifies (infer_nulls_as : Bool) (r : Option Bool) : Prop :=
  if infer_nulls_as then r ≠ some false else r = some true

theorem qualifies_iff (infer_nulls_as : Bool) (r : Option Bool) :
    Qualifies infer_nulls_as r ↔ r.getD infer_nulls_as = true := by
  cases infer_nulls_as <;> rcases r with _ | _ | _ <;> simp [Qualifies]

end Eval

/-! ## The derivation -/

section Derivation

variable {α : Type u} [LinearOrder α]

/-- The constructor of `CRange` from a comparison. -/
def CRange.ofCmp (cmp_type : ECmpType) (datum : α) : CRange α :=
  match cmp_type with
  | .EcmptEq => ⟨some datum, .EriIncluded, some datum, .EriIncluded⟩
  | .EcmptL => ⟨none, .EriExcluded, some datum, .EriExcluded⟩
  | .EcmptLEq => ⟨none, .EriExcluded, some datum, .EriIncluded⟩
  | .EcmptG => ⟨some datum, .EriExcluded, none, .EriExcluded⟩
  | .EcmptGEq => ⟨some datum, .EriIncluded, none, .EriExcluded⟩
  | .EcmptNEq | .EcmptIDF => ⟨none, .EriExcluded, none, .EriExcluded⟩

def pciRangeFromColConstCmp (cmp_type : ECmpType) (datum : α) : List (CRange α) :=
  if cmp_type = .EcmptNEq ∨ cmp_type = .EcmptIDF then [.ofCmp .EcmptL datum, .ofCmp .EcmptG datum]
  else [.ofCmp cmp_type datum]

/-- The complement of a child's interval, or its `nullptr`. -/
def complementChild : Option (CConstraintInterval α) → Option (Option (CConstraintInterval α))
  | none => some none
  | some pciChild => (pciComplement pciChild).map some

/-- What `PciIntervalFromScalarBoolAnd` does with one more child. -/
def intersectChild : Option (CConstraintInterval α) → Option (CConstraintInterval α) →
    Option (Option (CConstraintInterval α))
  | some pci, some pciChild => (pciIntersect pci pciChild).map some
  | none, some pciChild => some (some pciChild)
  | pci, none => some pci

/-- One round of `PciIntervalFromScalarBoolOr`: the intervals are united in pairs. -/
def unionRound : List (CConstraintInterval α) → Option (List (CConstraintInterval α))
  | pci1 :: pci2 :: rest =>
    (pciUnion pci1 pci2).bind fun pciOr => (unionRound rest).map (pciOr :: ·)
  | constraints => some constraints

/-- The rounds of `PciIntervalFromScalarBoolOr`; each halves the number of intervals. -/
def unionRounds : ℕ → List (CConstraintInterval α) → Option (CConstraintInterval α)
  | _, [dest] => some dest
  | n + 1, constraints => (unionRound constraints).bind (unionRounds n)
  | 0, _ => none

mutual

/-- `PciIntervalFromScalarExpr`. -/
def derive : Pred α → Bool → Option (Option (CConstraintInterval α))
  | .other _, _ => some none
  | .isNull, _ => some (some ⟨[], true⟩)
  | .booleanTest .EbtIsTrue e, _ => derive e false
  | .booleanTest .EbtIsNotFalse e, _ => derive e true
  | .booleanTest .EbtIsNotTrue e, _ => (derive e !true).bind complementChild
  | .booleanTest .EbtIsFalse e, _ => (derive e !false).bind complementChild
  -- `PciIntervalFromScalarNullAndUnknownTest`: only an identifier is supported
  | .booleanTest .EbtIsUnknown _, _ => some none
  | .booleanTest .EbtIsNotUnknown _, _ => some none
  | .cmp t c, infer_nulls_as => some (some ⟨pciRangeFromColConstCmp t.1 c, infer_nulls_as⟩)
  | .isDistinctFrom none, _ => (pciComplement ⟨[], true⟩).map some
  | .isDistinctFrom (some c), _ => some (some ⟨pciRangeFromColConstCmp .EcmptIDF c, true⟩)
  | .const true, _ => some (some (pciUnbounded true))
  | .const false, _ => some (some ⟨[], false⟩)
  | .not e, infer_nulls_as => (derive e !infer_nulls_as).bind complementChild
  | .and e es, infer_nulls_as => (derive e infer_nulls_as).bind (deriveAnd es infer_nulls_as)
  | .or e es, infer_nulls_as => (derive e infer_nulls_as).bind fun
    | none => some none
    | some pciChild => (deriveOr es infer_nulls_as).bind fun
      | none => some none
      | some rest => (unionRounds (es.length + 1) (pciChild :: rest)).map some

/-- The loop of `PciIntervalFromScalarBoolAnd`. -/
def deriveAnd : List (Pred α) → Bool → Option (CConstraintInterval α) →
    Option (Option (CConstraintInterval α))
  | [], _, pci => some pci
  | e :: es, infer_nulls_as, pci =>
    (derive e infer_nulls_as).bind fun pciChild =>
      (intersectChild pci pciChild).bind (deriveAnd es infer_nulls_as)

/-- The first loop of `PciIntervalFromScalarBoolOr`. -/
def deriveOr : List (Pred α) → Bool → Option (Option (List (CConstraintInterval α)))
  | [], _ => some (some [])
  | e :: es, infer_nulls_as => (derive e infer_nulls_as).bind fun
    | none => some none
    | some pciChild => (deriveOr es infer_nulls_as).map (Option.map (pciChild :: ·))

end

end Derivation

/-! ## What is dropped -/

section Strip

variable {α : Type u}

mutual

/-- The predicate without the members of `AND` that give no interval; `none` if it gives none
itself. -/
def strip : Pred α → Option (Pred α)
  | .other _ => none
  | .booleanTest .EbtIsUnknown _ => none
  | .booleanTest .EbtIsNotUnknown _ => none
  | .booleanTest t e => (strip e).map (.booleanTest t)
  | .not e => (strip e).map .not
  | .and e es =>
    match (strip e).toList ++ stripAnd es with
    | [] => none
    | e :: es => some (.and e es)
  | .or e es => (strip e).bind fun e => (stripOr es).map (.or e)
  | e => some e

def stripAnd : List (Pred α) → List (Pred α)
  | [] => []
  | e :: es => (strip e).toList ++ stripAnd es

def stripOr : List (Pred α) → Option (List (Pred α))
  | [] => some []
  | e :: es => (strip e).bind fun e => (stripOr es).map (e :: ·)

end

mutual

/-- No `AND` below an odd number of negations drops a member; `pos` is the parity so far. -/
def lossless : Pred α → Bool → Bool
  | .booleanTest .EbtIsTrue e, pos => lossless e pos
  | .booleanTest .EbtIsNotFalse e, pos => lossless e pos
  | .booleanTest .EbtIsNotTrue e, pos => lossless e !pos
  | .booleanTest .EbtIsFalse e, pos => lossless e !pos
  | .not e, pos => lossless e !pos
  | .and e es, pos => (if (strip e).isNone then pos else lossless e pos) && losslessAnd es pos
  | .or e es, pos => lossless e pos && losslessOr es pos
  | _, _ => true

def losslessAnd : List (Pred α) → Bool → Bool
  | [], _ => true
  | e :: es, pos => (if (strip e).isNone then pos else lossless e pos) && losslessAnd es pos

def losslessOr : List (Pred α) → Bool → Bool
  | [], _ => true
  | e :: es, pos => lossless e pos && losslessOr es pos

end

section

variable (es : List (Pred α))

theorem losslessAnd_iff (pos : Bool) : losslessAnd es pos = true ↔
    ∀ x ∈ es, (if (strip x).isNone then pos else lossless x pos) = true := by
  induction es with
  | nil => simp [losslessAnd]
  | cons e es ih => rw [losslessAnd, Bool.and_eq_true, ih, forall_mem_cons]

theorem losslessOr_iff (pos : Bool) : losslessOr es pos = true ↔
    ∀ x ∈ es, lossless x pos = true := by
  induction es with
  | nil => simp [losslessOr]
  | cons e es ih => rw [losslessOr, Bool.and_eq_true, ih, forall_mem_cons]

theorem mem_stripAnd (p : Pred α) : p ∈ stripAnd es ↔ ∃ e ∈ es, strip e = some p := by
  induction es with
  | nil => simp [stripAnd]
  | cons e es ih => simp [stripAnd, ih]

theorem stripOr_some : ∀ {ps}, stripOr es = some ps →
    (∀ p ∈ ps, ∃ e ∈ es, strip e = some p) ∧ ∀ e ∈ es, ∃ p ∈ ps, strip e = some p := by
  induction es with
  | nil =>
    intro ps h
    obtain rfl : [] = ps := Option.some.inj h
    simp
  | cons e es ih =>
    intro ps h
    obtain ⟨p, hp, h⟩ := Option.bind_eq_some_iff.1 h
    obtain ⟨qs, hqs, rfl⟩ := Option.map_eq_some_iff.1 h
    obtain ⟨h₁, h₂⟩ := ih hqs
    constructor
    · refine forall_mem_cons.2 ⟨⟨e, mem_cons_self, hp⟩, fun q hq => ?_⟩
      obtain ⟨x, hx, hq⟩ := h₁ q hq
      exact ⟨x, mem_cons_of_mem e hx, hq⟩
    · refine forall_mem_cons.2 ⟨⟨p, mem_cons_self, hp⟩, fun x hx => ?_⟩
      obtain ⟨q, hq, hx⟩ := h₂ x hx
      exact ⟨q, mem_cons_of_mem p hq, hx⟩

end

variable {e p : Pred α} {es : List (Pred α)}

theorem strip_and_some (h : strip (.and e es) = some p) :
    ∃ q qs, p = .and q qs ∧ ∀ x, x ∈ q :: qs ↔ ∃ y ∈ e :: es, strip y = some x := by
  have hmem := mem_stripAnd (e :: es)
  rw [stripAnd] at hmem
  rw [strip] at h
  generalize (strip e).toList ++ stripAnd es = ps at h hmem
  cases ps with
  | nil => exact absurd h (by simp)
  | cons q qs => exact ⟨q, qs, (Option.some.inj h).symm, hmem⟩

theorem strip_or_some (h : strip (.or e es) = some p) :
    ∃ q qs, p = .or q qs ∧ (∀ x ∈ q :: qs, ∃ y ∈ e :: es, strip y = some x) ∧
      ∀ y ∈ e :: es, ∃ x ∈ q :: qs, strip y = some x := by
  obtain ⟨q, hq, h⟩ := Option.bind_eq_some_iff.1 h
  obtain ⟨qs, hqs, rfl⟩ := Option.map_eq_some_iff.1 h
  exact ⟨q, qs, rfl, stripOr_some (e :: es) (by rw [stripOr, hq, Option.bind_some, hqs]; rfl)⟩

end Strip

section Exactness

variable {α : Type u} [LinearOrder α]

/-! ## The interval has the values of what is kept -/

/-- The result is an interval with exactly the values that `p` lets through, or no interval if there
is no `p`. -/
def Exact (infer_nulls_as : Bool) (p : Option (Pred α)) (r : Option (CConstraintInterval α)) :
    Prop :=
  match p, r with
  | none, none => True
  | some p, some I => I.Canonical ∧ ∀ v, I.Has v ↔ (p.eval v).getD infer_nulls_as = true
  | _, _ => False

theorem pciRangeFromColConstCmp_spec (t : ECmpType) (c : α) (n : Bool) :
    (⟨pciRangeFromColConstCmp t c, n⟩ : CConstraintInterval α).Canonical ∧
      ∀ x, (⟨pciRangeFromColConstCmp t c, n⟩ : CConstraintInterval α).Has (some x) ↔
      t.eval x c = true := by
  constructor
  · cases t <;> constructor <;>
      simp [pciRangeFromColConstCmp, CRange.ofCmp, CRange.ok_iff, hi_lt_lo_iff]
  intro x
  cases t <;> simp [pciRangeFromColConstCmp, CRange.ofCmp, Has, CRange.has_iff,
    ECmpType.eval, lt_or_lt_iff_ne]
  exact ⟨fun h => le_antisymm h.2 h.1, fun h => ⟨h.ge, h.le⟩⟩

variable {infer : Bool} {p : Option (Pred α)} {r : Option (CConstraintInterval α)} (e : Pred α)
  (es : List (Pred α))

/-- The derivation comes to an end, with the interval of what is kept. -/
abbrev Derives (infer : Bool) (e : Pred α) : Prop := ∃ r, derive e infer = some r ∧
    Exact infer (strip e) r

theorem Exact.cases (h : Exact infer p r) : p = none ∧ r = none ∨ ∃ q I, p = some q ∧ r = some I ∧
    I.Canonical ∧ ∀ v, I.Has v ↔ (q.eval v).getD infer = true :=
  match p, r, h with
  | none, none, _ => .inl ⟨rfl, rfl⟩
  | some q, some I, h => .inr ⟨q, I, rfl, rfl, h⟩

theorem Exact.map {d : Bool} (h : Exact d p r) (f : Pred α → Pred α)
    (hf : ∀ q v, ((f q).eval v).getD infer = (q.eval v).getD d) : Exact infer (p.map f) r := by
  rcases h.cases with ⟨rfl, rfl⟩ | ⟨q, I, rfl, rfl, hcan, hhas⟩
  · trivial
  · exact ⟨hcan, fun v => by rw [hhas, hf]⟩

theorem Exact.complement {d : Bool} (h : Exact d p r) (f : Pred α → Pred α)
    (hf : ∀ q v, ((f q).eval v).getD infer = !(q.eval v).getD d) :
    ∃ r', complementChild r = some r' ∧ Exact infer (p.map f) r' := by
  rcases h.cases with ⟨rfl, rfl⟩ | ⟨q, I, rfl, rfl, hcan, hhas⟩
  · exact ⟨none, rfl, trivial⟩
  obtain ⟨N, hN, hNcan, hNhas⟩ := pciComplement_spec hcan
  refine ⟨some N, by rw [complementChild, hN]; rfl, hNcan, fun v => ?_⟩
  rw [hNhas, hhas, hf]
  simp

/-! ### Conjunctions -/

/-- The interval has the values that all of `ps` let through; there is none if there is no `ps`. -/
def ExactAnd (infer_nulls_as : Bool) (ps : List (Pred α)) : Option (CConstraintInterval α) → Prop
  | none => ps = []
  | some I => ps ≠ [] ∧ I.Canonical ∧ ∀ v, I.Has v ↔ ∀ p ∈ ps, (p.eval v).getD infer_nulls_as = true

theorem Exact.toAnd (h : Exact infer p r) : ExactAnd infer p.toList r := by
  rcases h.cases with ⟨rfl, rfl⟩ | ⟨q, I, rfl, rfl, hcan, hhas⟩
  · rfl
  · exact ⟨by simp, hcan, by simpa using hhas⟩

theorem intersectChild_spec {ps : List (Pred α)} {q : Option (Pred α)}
    {rc : Option (CConstraintInterval α)} (h : ExactAnd infer ps r) (hc : Exact infer q rc) :
    ∃ r', intersectChild r rc = some r' ∧ ExactAnd infer (ps ++ q.toList) r' := by
  rcases hc.cases with ⟨rfl, rfl⟩ | ⟨q, J, rfl, rfl, hJcan, hJhas⟩
  · exact ⟨r, by cases r <;> rfl, by simpa using h⟩
  cases r with
  | none =>
    obtain rfl : ps = [] := h
    exact ⟨some J, rfl, hc.toAnd⟩
  | some I =>
    obtain ⟨-, hcan, hhas⟩ := h
    obtain ⟨K, hK, hKcan, hKhas⟩ := pciIntersect_spec hcan hJcan
    refine ⟨some K, by rw [intersectChild, hK]; rfl, by simp, hKcan, fun v => ?_⟩
    rw [hKhas, hhas, hJhas]
    simp [or_imp, forall_and]

theorem deriveAnd_spec (hes : ∀ x ∈ es, Derives infer x) :
    ∀ {ps : List (Pred α)} {r : Option (CConstraintInterval α)}, ExactAnd infer ps r →
      ∃ r', deriveAnd es infer r = some r' ∧ ExactAnd infer (ps ++ stripAnd es) r' := by
  induction es with
  | nil => exact fun {ps r} h => ⟨r, rfl, by rw [stripAnd, append_nil]; exact h⟩
  | cons e es ih =>
    intro ps r h
    obtain ⟨rc, hrc, hexact⟩ := hes e mem_cons_self
    obtain ⟨r₁, hr₁, h₁⟩ := intersectChild_spec h hexact
    obtain ⟨r₂, hr₂, h₂⟩ := ih (fun x hx => hes x (mem_cons_of_mem e hx)) h₁
    refine ⟨r₂, ?_, by rw [stripAnd, ← append_assoc]; exact h₂⟩
    rw [deriveAnd, hrc, Option.bind_some, hr₁, Option.bind_some, hr₂]

theorem ExactAnd.toExact {e : Pred α} {es : List (Pred α)}
    (h : ExactAnd infer ((strip e).toList ++ stripAnd es) r) :
    Exact infer (strip (.and e es)) r := by
  rw [strip]
  generalize (strip e).toList ++ stripAnd es = ps at h ⊢
  cases ps with
  | nil => cases r with
    | none => trivial
    | some I => exact absurd rfl h.1
  | cons p ps => cases r with
    | none => exact absurd h (cons_ne_nil p ps)
    | some I => exact ⟨h.2.1, fun v => by rw [h.2.2, eval_and_getD, all_eq_true]⟩

/-! ### Disjunctions -/

/-- Some interval of the array has the value. -/
def SomeHas (l : List (CConstraintInterval α)) (v : Option α) : Prop := ∃ I ∈ l, I.Has v

theorem someHas_cons (I : CConstraintInterval α) (l : List (CConstraintInterval α)) (v : Option α) :
    SomeHas (I :: l) v ↔ I.Has v ∨ SomeHas l v := by simp [SomeHas]

theorem unionRound_spec (l : List (CConstraintInterval α)) (hl : ∀ I ∈ l, I.Canonical) :
    ∃ l', unionRound l = some l' ∧ (∀ I ∈ l', I.Canonical) ∧ (∀ v, SomeHas l' v ↔ SomeHas l v) ∧
      l'.length = (l.length + 1) / 2 := by
  induction l using unionRound.induct with
  | case1 I J rest ih =>
    obtain ⟨hI, hJ, hrest⟩ : I.Canonical ∧ J.Canonical ∧
        ∀ K ∈ rest, K.Canonical := by simpa using hl
    obtain ⟨U, hU, hUcan, hUhas⟩ := pciUnion_spec hI hJ
    obtain ⟨l', hl', hcan, hhas, hlen⟩ := ih hrest
    refine ⟨U :: l', by rw [unionRound, hU, Option.bind_some, hl']; rfl, ?_, fun v => ?_, ?_⟩
    · exact forall_mem_cons.2 ⟨hUcan, hcan⟩
    · rw [someHas_cons, hUhas, hhas, someHas_cons, someHas_cons, or_assoc]
    · simp only [length_cons]
      omega
  | case2 l hl₂ =>
    cases l with
    | nil => exact ⟨[], rfl, hl, fun v => Iff.rfl, by simp⟩
    | cons I l =>
      cases l with
      | nil => exact ⟨[I], rfl, hl, fun v => Iff.rfl, by simp⟩
      | cons J rest => exact absurd rfl (hl₂ I J rest)

theorem unionRounds_spec (n : ℕ) (l : List (CConstraintInterval α)) (hne : l ≠ [])
    (hlen : l.length ≤ n + 1) (hl : ∀ I ∈ l, I.Canonical) :
    ∃ dest, unionRounds n l = some dest ∧ dest.Canonical ∧ ∀ v, dest.Has v ↔ SomeHas l v := by
  induction n generalizing l with
  | zero =>
    obtain ⟨I, rfl⟩ : ∃ I, l = [I] := length_eq_one_iff.1 (by have := length_pos_iff.2 hne; omega)
    exact ⟨I, rfl, hl I mem_cons_self, fun v => by simp [SomeHas]⟩
  | succ n ih =>
    by_cases hone : ∃ I, l = [I]
    · obtain ⟨I, rfl⟩ := hone
      exact ⟨I, rfl, hl I mem_cons_self, fun v => by simp [SomeHas]⟩
    obtain ⟨l', hl', hcan, hhas, hlen'⟩ := unionRound_spec l hl
    have hpos := length_pos_iff.2 hne
    obtain ⟨dest, hdest, hdcan, hdhas⟩ := ih l' (length_pos_iff.1 (by omega)) (by omega) hcan
    refine ⟨dest, ?_, hdcan, fun v => (hdhas v).trans (hhas v)⟩
    rw [unionRounds, hl', Option.bind_some, hdest]
    exact fun I h => hone ⟨I, h⟩

/-- As `Exact`, for the children of an `OR`. -/
def ExactOr (infer_nulls_as : Bool) (ps : Option (List (Pred α)))
    (r : Option (List (CConstraintInterval α))) : Prop :=
  match ps, r with
  | none, none => True
  | some ps, some l => (∀ I ∈ l, I.Canonical) ∧
      ∀ v, SomeHas l v ↔ ∃ p ∈ ps, (p.eval v).getD infer_nulls_as = true
  | _, _ => False

theorem ExactOr.cases {ps : Option (List (Pred α))} {r : Option (List (CConstraintInterval α))}
    (h : ExactOr infer ps r) : ps = none ∧ r = none ∨ ∃ qs l, ps = some qs ∧ r = some l ∧
      (∀ I ∈ l, I.Canonical) ∧ ∀ v, SomeHas l v ↔ ∃ p ∈ qs, (p.eval v).getD infer = true :=
  match ps, r, h with
  | none, none, _ => .inl ⟨rfl, rfl⟩
  | some qs, some l, h => .inr ⟨qs, l, rfl, rfl, h⟩

theorem deriveOr_spec (hes : ∀ x ∈ es, Derives infer x) :
    ∃ r, deriveOr es infer = some r ∧ ExactOr infer (stripOr es) r ∧ ∀ l, r = some l →
    l.length = es.length := by
  induction es with
  | nil => exact ⟨some [], rfl, ⟨by simp, by simp [SomeHas]⟩, by simp⟩
  | cons e es ih =>
    obtain ⟨rc, hrc, hexact⟩ := hes e mem_cons_self
    obtain ⟨r, hr, hor, hlen⟩ := ih fun x hx => hes x (mem_cons_of_mem e hx)
    rw [deriveOr, hrc, Option.bind_some, stripOr]
    rcases hexact.cases with ⟨hs, rfl⟩ | ⟨p, I, hs, rfl, hcan, hhas⟩
    · exact ⟨none, rfl, by rw [hs]; trivial, by simp⟩
    refine ⟨r.map (I :: ·), by rw [hr]; rfl, ?_, ?_⟩
    · rw [hs, Option.bind_some]
      rcases hor.cases with ⟨hps, rfl⟩ | ⟨ps, l, hps, rfl, hlcan, hlhas⟩
      · rw [hps]
        trivial
      rw [hps]
      refine ⟨forall_mem_cons.2 ⟨hcan, hlcan⟩, fun v => ?_⟩
      rw [someHas_cons, hhas, hlhas]
      simp
    · intro l hl
      obtain ⟨l, hl', rfl⟩ := Option.map_eq_some_iff.1 hl
      rw [length_cons, length_cons, hlen l hl']

theorem derive_or_spec (he : Derives infer e)
    (hes : ∀ x ∈ es, Derives infer x) : Derives infer (.or e es) := by
  obtain ⟨rc, hrc, hexact⟩ := he
  obtain ⟨r, hr, hor, hlen⟩ := deriveOr_spec es hes
  rw [Derives, derive, hrc, Option.bind_some, strip]
  rcases hexact.cases with ⟨hs, rfl⟩ | ⟨p, I, hs, rfl, hcan, hhas⟩
  · exact ⟨none, rfl, by rw [hs]; trivial⟩
  dsimp only
  rw [hr, hs, Option.bind_some, Option.bind_some]
  rcases hor.cases with ⟨hps, rfl⟩ | ⟨ps, l, hps, rfl, hlcan, hlhas⟩
  · exact ⟨none, rfl, by rw [hps]; trivial⟩
  obtain ⟨dest, hdest, hdcan, hdhas⟩ :=
    unionRounds_spec (es.length + 1) (I :: l) (cons_ne_nil I l)
    (by rw [length_cons, hlen l rfl]; omega) (forall_mem_cons.2 ⟨hcan, hlcan⟩)
  rw [hps]
  refine ⟨some dest, by dsimp only; rw [hdest]; rfl, hdcan, fun v => ?_⟩
  rw [hdhas, someHas_cons, hhas, hlhas, eval_or_getD]
  simp

/-! ### All predicates -/

theorem derive_booleanTest_spec (t : EBoolTest) (e : Pred α)
    (he : ∀ infer, Derives infer e) : Derives infer (.booleanTest t e) := by
  obtain ⟨rt, hrt, htrue⟩ := he true
  obtain ⟨rf, hrf, hfalse⟩ := he false
  cases t with
  | EbtIsTrue =>
    exact ⟨rf, by rw [derive, hrf], hfalse.map _ fun q v => EBoolTest.isTrue_eval (q.eval v)⟩
  | EbtIsNotFalse =>
    exact ⟨rt, by rw [derive, hrt], htrue.map _ fun q v => EBoolTest.isNotFalse_eval (q.eval v)⟩
  | EbtIsNotTrue =>
    rw [Derives, derive, Bool.not_true, hrf]
    exact hfalse.complement _ fun q v => EBoolTest.isNotTrue_eval (q.eval v)
  | EbtIsFalse =>
    rw [Derives, derive, Bool.not_false, hrt]
    exact htrue.complement _ fun q v => EBoolTest.isFalse_eval (q.eval v)
  | EbtIsUnknown | EbtIsNotUnknown => exact ⟨none, rfl, trivial⟩

/-- **The derived interval is exact for the predicate without the dropped members.** -/
theorem derive_spec : ∀ infer, Derives infer e := by
  induction e using members_induction with
  | other f => exact fun _ => ⟨none, rfl, trivial⟩
  | cmp t c =>
    intro infer
    obtain ⟨hcan, hhas⟩ := pciRangeFromColConstCmp_spec t.1 c infer
    refine ⟨_, rfl, hcan, fun v => ?_⟩
    cases v with
    | none => exact Iff.rfl
    | some x => exact hhas x
  | isDistinctFrom c =>
    intro infer
    cases c with
    | none =>
      obtain ⟨N, hN, hcan, hhas⟩ :=
        pciComplement_spec (A := (⟨[], true⟩ : CConstraintInterval α)) canon_nil
      refine ⟨some N, by rw [derive, hN]; rfl, hcan, fun v => ?_⟩
      rw [hhas, eval]
      cases v <;> simp [Has]
    | some c =>
      obtain ⟨hcan, hhas⟩ := pciRangeFromColConstCmp_spec .EcmptIDF c true
      refine ⟨_, rfl, hcan, fun v => ?_⟩
      rw [eval]
      cases v with
      | none => simp [Has]
      | some x =>
        rw [hhas]
        simp [ECmpType.eval]
  | isNull =>
    refine fun _ => ⟨_, rfl, canon_nil, fun v => ?_⟩
    cases v <;> simp [Has, eval]
  | const b =>
    intro infer
    cases b with
    | false =>
      refine ⟨_, rfl, canon_nil, fun v => ?_⟩
      cases v <;> simp [Has, eval]
    | true =>
      obtain ⟨hcan, hall⟩ := @pciUnbounded_spec α _ true
      refine ⟨_, rfl, hcan, fun v => iff_of_true ?_ rfl⟩
      cases v with
      | none => rfl
      | some x => exact hall x
  | booleanTest t e ih => exact fun infer => derive_booleanTest_spec t e ih
  | not e ih =>
    intro infer
    obtain ⟨r, hr, hexact⟩ := ih !infer
    rw [Derives, derive, hr]
    exact hexact.complement _ fun q v => not3_getD (q.eval v) infer
  | and e es ihe ihes =>
    intro infer
    obtain ⟨r, hr, hexact⟩ := ihe infer
    obtain ⟨r', hr', hand⟩ := deriveAnd_spec es (fun x hx => ihes x hx infer) hexact.toAnd
    exact ⟨r', by rw [derive, hr, Option.bind_some, hr'], hand.toExact⟩
  | or e es ihe ihes =>
    exact fun infer => derive_or_spec e es (ihe infer) fun x hx => ihes x hx infer

/-! ## Which predicates keep their rows -/

/-- Every row that qualifies still does when the members of `AND` that give no interval are deleted.
-/
def Keeps (infer_nulls_as : Bool) : Prop :=
  ∀ p, strip e = some p → ∀ v, Qualifies infer_nulls_as (e.eval v) →
  Qualifies infer_nulls_as (p.eval v)

/-- `b` is at least as true as `a`, or at most if the parity is odd. -/
def Weaker (pos a b : Bool) : Prop := if pos then a = true → b = true else b = true → a = true

theorem Weaker.not {pos a b : Bool} (h : Weaker (!pos) a b) : Weaker pos (!a) (!b) := by
  revert h
  cases pos <;> cases a <;> cases b <;> simp [Weaker]

/-- **Deleting the dropped members weakens a predicate**, or strengthens it under an odd number of
negations, if there no member is dropped. -/
theorem lossless_spec : ∀ pos, lossless e pos = true → ∀ p, strip e = some p → ∀ v d,
    Weaker pos ((e.eval v).getD d) ((p.eval v).getD d) := by
  have hself {e p : Pred α} (hp : some e = some p) (pos : Bool) (v : Option α) (d : Bool) :
      Weaker pos ((e.eval v).getD d) ((p.eval v).getD d) := by
    cases hp
    simp [Weaker]
  induction e using members_induction with
  | other f => exact fun _ _ p hp => absurd hp (by simp [strip])
  | cmp t c | isDistinctFrom c | isNull | const b => exact fun pos _ p hp => hself hp pos
  | booleanTest t e ih =>
    intro pos h p hp v d
    cases t with
    | EbtIsUnknown | EbtIsNotUnknown => exact absurd hp (by simp [strip])
    | EbtIsTrue =>
      obtain ⟨q, hq, rfl⟩ := Option.map_eq_some_iff.1 hp
      rw [eval, eval, EBoolTest.isTrue_eval, EBoolTest.isTrue_eval]
      exact ih pos h q hq v false
    | EbtIsNotFalse =>
      obtain ⟨q, hq, rfl⟩ := Option.map_eq_some_iff.1 hp
      rw [eval, eval, EBoolTest.isNotFalse_eval, EBoolTest.isNotFalse_eval]
      exact ih pos h q hq v true
    | EbtIsNotTrue =>
      obtain ⟨q, hq, rfl⟩ := Option.map_eq_some_iff.1 hp
      rw [eval, eval, EBoolTest.isNotTrue_eval, EBoolTest.isNotTrue_eval]
      exact (ih (!pos) h q hq v false).not
    | EbtIsFalse =>
      obtain ⟨q, hq, rfl⟩ := Option.map_eq_some_iff.1 hp
      rw [eval, eval, EBoolTest.isFalse_eval, EBoolTest.isFalse_eval]
      exact (ih (!pos) h q hq v true).not
  | not e ih =>
    intro pos h p hp v d
    obtain ⟨q, hq, rfl⟩ := Option.map_eq_some_iff.1 hp
    rw [eval, eval, not3_getD, not3_getD]
    exact (ih (!pos) h q hq v (!d)).not
  | and e es ihe ihes =>
    intro pos h p hp v d
    obtain ⟨q, qs, rfl, hmem⟩ := strip_and_some hp
    have hall := (losslessAnd_iff (e :: es) pos).1 h
    have ih : ∀ y ∈ e :: es, _ := forall_mem_cons.2 ⟨ihe, ihes⟩
    rw [eval_and_getD, eval_and_getD]
    cases pos with
    | true =>
      show _ = true → _ = true
      rw [all_eq_true, all_eq_true]
      intro htrue x hx
      obtain ⟨y, hy, hyx⟩ := (hmem x).1 hx
      have hl := hall y hy
      rw [hyx] at hl
      exact ih y hy true hl x hyx v d (htrue y hy)
    | false =>
      -- nothing is dropped here, so every member is represented
      show _ = true → _ = true
      rw [all_eq_true, all_eq_true]
      intro htrue y hy
      have hl := hall y hy
      cases hyx : strip y with
      | none =>
        rw [hyx] at hl
        exact absurd hl (by simp)
      | some x =>
        rw [hyx] at hl
        exact ih y hy false hl x hyx v d (htrue x ((hmem x).2 ⟨y, hy, hyx⟩))
  | or e es ihe ihes =>
    intro pos h p hp v d
    obtain ⟨q, qs, rfl, hfrom, hto⟩ := strip_or_some hp
    have hall := (losslessOr_iff (e :: es) pos).1 h
    have ih : ∀ y ∈ e :: es, _ := forall_mem_cons.2 ⟨ihe, ihes⟩
    rw [eval_or_getD, eval_or_getD]
    cases pos with
    | true =>
      show _ = true → _ = true
      rw [any_eq_true, any_eq_true]
      rintro ⟨y, hy, htrue⟩
      obtain ⟨x, hx, hyx⟩ := hto y hy
      exact ⟨x, hx, ih y hy true (hall y hy) x hyx v d htrue⟩
    | false =>
      show _ = true → _ = true
      rw [any_eq_true, any_eq_true]
      rintro ⟨x, hx, htrue⟩
      obtain ⟨y, hy, hyx⟩ := hfrom x hx
      exact ⟨y, hy, ih y hy false (hall y hy) x hyx v d htrue⟩

/-- **No row is lost unless an `AND` drops a member under an odd number of negations.** -/
theorem keeps_of_lossless {e : Pred α} (h : lossless e true = true) (infer_nulls_as : Bool) :
    Keeps e infer_nulls_as := by
  intro p hp v hv
  rw [qualifies_iff] at hv ⊢
  exact lossless_spec e true h p hp v infer_nulls_as hv

/-- **When the derived interval loses no row**: exactly if deleting the members of `AND` that give
no interval keeps every row of the predicate. The derivation itself always comes to an end. -/
theorem derive_sound_iff (e : Pred α) (infer_nulls_as : Bool) :
      (∃ r, derive e infer_nulls_as = some r) ∧ ((∀ I, derive e infer_nulls_as = some (some I) →
          ∀ v, Qualifies infer_nulls_as (e.eval v) → I.Has v) ↔ Keeps e infer_nulls_as) := by
  obtain ⟨r, hr, hexact⟩ := derive_spec e infer_nulls_as
  refine ⟨⟨r, hr⟩, ?_, ?_⟩
  · intro hsound p hp v hv
    rw [hp] at hexact
    cases r with
    | none => exact hexact.elim
    | some I => exact (qualifies_iff _ _).2 ((hexact.2 v).1 (hsound I hr v hv))
  intro hkeeps I hI v hv
  obtain rfl : r = some I := Option.some.inj (hr.symm.trans hI)
  cases hp : strip e with
  | none =>
    rw [hp] at hexact
    exact hexact.elim
  | some p =>
    rw [hp] at hexact
    exact (hexact.2 v).2 ((qualifies_iff _ _).1 (hkeeps p hp v hv))

end Exactness

/-! ## The complement of a weakened conjunction -/

/-- `a = 1`. -/
def isOne : Pred ℤ := .cmp ⟨.EcmptEq, by decide⟩ 1

/-- A function of the column that is not understood, false everywhere. -/
def opaqueFalse : Pred ℤ := .other fun _ => some false

/-- `a = 1 AND (NOT (a IS NULL AND a = 1) OR a IS DISTINCT FROM NULL) AND f(a)` keeps its rows. -/
theorem derive_sound_positive :
    let e : Pred ℤ := .and isOne [.or (.not (.and .isNull [isOne])) [.isDistinctFrom none],
      opaqueFalse]
    lossless e true = true ∧
      ∀ I, derive e false = some (some I) → ∀ v, Qualifies false (e.eval v) → I.Has v := by
  intro e
  have h : lossless e true = true := by decide +kernel
  exact ⟨h, (derive_sound_iff e false).2.2 (keeps_of_lossless h false)⟩

/-- **`NOT (a = 1 AND f(a))` with `f` false everywhere**: the predicate is true for 1, and the
derived interval is all values but 1. -/
theorem complement_loses_row :
    let e := not (.and isOne [opaqueFalse])
    derive e false = some (some ⟨[⟨none, .EriExcluded, some 1, .EriExcluded⟩,
      ⟨some 1, .EriExcluded, none, .EriExcluded⟩], false⟩) ∧
    Qualifies false (e.eval (some 1)) ∧
    ¬ (∀ I, derive e false = some (some I) → ∀ v, Qualifies false (e.eval v) → I.Has v) := by
  intro e
  have hderive : derive e false = some (some ⟨[⟨none, .EriExcluded, some 1, .EriExcluded⟩,
      ⟨some 1, .EriExcluded, none, .EriExcluded⟩], false⟩) := by decide +kernel
  have hq : Qualifies false (e.eval (some 1)) := by
    unfold Qualifies
    decide +kernel
  refine ⟨hderive, hq, fun hsound => ?_⟩
  have := hsound _ hderive (some 1) hq
  simp [Has, CRange.has_iff] at this

end PolemoDB.Gporca
