import PolemoDB.Gporca.ConstraintInterval

/-!
# Children of conjunctions and disjunctions (`CConstraint.cpp`)

A constraint with several children takes over the children of those of its own type, and combines
those that use one column alone: their predicate is turned into an interval of the column. If that
fails, the first of them is kept and the others are dropped, which is right for a conjunction and
loses rows of a disjunction.

A set of columns is the list of its columns. The conversion is a parameter.
-/

namespace PolemoDB.Gporca

open List

universe u v

/-- `EConstraintType`, of the constraints with several children. -/
inductive EConstraintType where
  | EctConjunction
  | EctDisjunction

/-- `CConstraint`; the columns of a conjunction or disjunction are those of the children it was made
from. -/
inductive CConstraint {κ : Type u} (α : κ → Type v) where
  | interval (colref : κ) (pci : CConstraintInterval (α colref))
  | conjunction (pcrsUsed : List κ) (pdrgpcnstr : List (CConstraint α))
  | disjunction (pcrsUsed : List κ) (pdrgpcnstr : List (CConstraint α))
  | negation (pcnstr : CConstraint α)

section

variable {κ : Type u} [DecidableEq κ] {α : κ → Type v} {l : List (CConstraint α)}
  {p : CConstraint α} {c : κ} (pdrgpcnstr : List (CConstraint α))

def CConstraint.pcrsUsed : CConstraint α → List κ
  | .interval colref _ => [colref]
  | .conjunction pcrs _ => pcrs
  | .disjunction pcrs _ => pcrs
  | .negation pcnstr => pcnstr.pcrsUsed

/-- `PdrgpcnstrOnColumn`: the constraints that use the column, and no other if `fExclusive`. -/
def pdrgpcnstrOnColumn (colref : κ) (fExclusive : Bool) : List (CConstraint α) :=
  pdrgpcnstr.filter fun pcnstr => colref ∈ pcnstr.pcrsUsed ∧
    (fExclusive → pcnstr.pcrsUsed.length = 1)

/-- One round of `PhmcolconstrSingleColConstr`, which maps each column to its constraints. -/
def mapSingleCol (phmcolconstr : κ → Option (List (CConstraint α))) (pcnstrChild : CConstraint α) :
    κ → Option (List (CConstraint α)) :=
  match pcnstrChild.pcrsUsed with
  | [colref] => Function.update phmcolconstr colref
    (some ((phmcolconstr colref).getD [] ++ [pcnstrChild]))
  | _ => phmcolconstr

/-- `PdrgPcnstrLookup` of the mapper for the length of the array; `none` is a null pointer. -/
def pdrgPcnstrLookup (colref : κ) : Option (List (CConstraint α)) :=
  if 5 ≤ pdrgpcnstr.length then pdrgpcnstr.foldl mapSingleCol (fun _ => none) colref
  else some (pdrgpcnstrOnColumn pdrgpcnstr colref true)

/-- The interval of the conjunction, or disjunction, of constraints on one column. -/
abbrev Conversion (α : κ → Type v) := List (CConstraint α) →
    (colref : κ) → Option (CConstraintInterval (α colref))

/-- The loop of `PdrgpcnstrDeduplicate`, with the columns that are combined already. -/
def deduplicateLoop (convert : Conversion α) (pdrgpcnstr : List (CConstraint α)) :
    List κ → List (CConstraint α) → Option (List (CConstraint α))
  | _, [] => some []
  | pcrsDeduped, pcnstrChild :: rest =>
    match pcnstrChild.pcrsUsed with
    | [colref] =>
      if colref ∈ pcrsDeduped then deduplicateLoop convert pdrgpcnstr pcrsDeduped rest
      else
        (pdrgPcnstrLookup pdrgpcnstr colref).bind fun pdrgpcnstrCol =>
          if pdrgpcnstrCol.length = 1 then
            (deduplicateLoop convert pdrgpcnstr pcrsDeduped rest).map (pcnstrChild :: ·)
          else
            (deduplicateLoop convert pdrgpcnstr (colref :: pcrsDeduped) rest).map
              ((convert pdrgpcnstrCol colref).elim pcnstrChild (.interval colref) :: ·)
    | _ => (deduplicateLoop convert pdrgpcnstr pcrsDeduped rest).map (pcnstrChild :: ·)

/-- The children of children of the same type, in their place. -/
def flattened (ect : EConstraintType) (pdrgpcnstr : List (CConstraint α)) : List (CConstraint α) :=
  pdrgpcnstr.flatMap fun pcnstr =>
    match ect, pcnstr with
    | .EctConjunction, .conjunction _ children => children
    | .EctDisjunction, .disjunction _ children => children
    | _, pcnstr => [pcnstr]

/-- Those of them that use the column alone. -/
def flattenedOn (ect : EConstraintType) (pdrgpcnstr : List (CConstraint α)) (colref : κ) :=
  pdrgpcnstrOnColumn (flattened ect pdrgpcnstr) colref true

/-- `PdrgpcnstrFlatten` and `PdrgpcnstrDeduplicate`. -/
def pdrgpcnstrFlatten (convert : Conversion α) (pdrgpcnstr : List (CConstraint α))
    (ect : EConstraintType) : Option (List (CConstraint α)) :=
  deduplicateLoop convert (flattened ect pdrgpcnstr) [] (flattened ect pdrgpcnstr)

/-! ## The two mappers -/

theorem mem_onColumn : p ∈ pdrgpcnstrOnColumn l c true ↔ p ∈ l ∧ p.pcrsUsed = [c] := by
  simp only [pdrgpcnstrOnColumn, mem_filter, decide_eq_true_eq, forall_const]
  refine and_congr_right fun _ => ⟨fun h => ?_, fun h => by simp [h]⟩
  obtain ⟨x, hx⟩ := length_eq_one_iff.mp h.2
  rw [hx, mem_singleton] at h
  rw [hx, h.1]

theorem onColumn_cons (p : CConstraint α) : pdrgpcnstrOnColumn (p :: l) c true =
    if p.pcrsUsed = [c] then p :: pdrgpcnstrOnColumn l c true else pdrgpcnstrOnColumn l c true := by
  have hp : p ∈ pdrgpcnstrOnColumn [p] c true ↔ p.pcrsUsed = [c] := by simp [mem_onColumn]
  unfold pdrgpcnstrOnColumn at hp ⊢
  rw [filter_cons]
  exact if_congr (by simpa using hp) rfl rfl

theorem mapSingleCol_apply (phm : κ → Option (List (CConstraint α))) : mapSingleCol phm p c =
    if p.pcrsUsed = [c] then some ((phm c).getD [] ++ [p]) else phm c := by
  unfold mapSingleCol
  rcases p.pcrsUsed with _ | ⟨d, _ | _⟩
  · simp
  · by_cases hd : d = c
    · subst hd
      simp
    · simp [hd, Function.update_of_ne (Ne.symm hd)]
  · simp

theorem foldl_mapSingleCol (l : List (CConstraint α)) (c : κ)
    (phm : κ → Option (List (CConstraint α))) :
    l.foldl mapSingleCol phm c =
      if pdrgpcnstrOnColumn l c true =
      [] then phm c else some ((phm c).getD [] ++ pdrgpcnstrOnColumn l c true) := by
  induction l generalizing phm with
  | nil => rfl
  | cons p l ih =>
    rw [foldl_cons, ih, onColumn_cons, mapSingleCol_apply]
    by_cases hp : p.pcrsUsed = [c]
    · split <;> simp [*]
    · rw [if_neg hp, if_neg hp]

theorem lookup_eq (hp : p ∈ l) (hc : p.pcrsUsed = [c]) :
    pdrgPcnstrLookup l c = some (pdrgpcnstrOnColumn l c true) := by
  unfold pdrgPcnstrLookup
  split
  · rw [foldl_mapSingleCol, if_neg (ne_nil_of_mem (mem_onColumn.mpr ⟨hp, hc⟩))]
    rfl
  · rfl

/-! ## The loop -/

/-- What the loop keeps of `rest`: children, and intervals of columns that several children use
alone; a child that is not kept uses a column alone that is combined already or whose interval, if
there is one, is kept. -/
theorem deduplicateLoop_spec (convert : Conversion α) (l : List (CConstraint α)) :
    ∀ rest, (∀ p ∈ rest, p ∈ l) →
      ∀ pcrsDeduped, ∃ kept, deduplicateLoop convert l pcrsDeduped rest = some kept ∧
      (∀ q ∈ kept, q ∈ l ∨ ∃ c pci, convert (pdrgpcnstrOnColumn l c true) c = some pci ∧
      q = .interval c pci) ∧ ∀ p ∈ rest, p ∈ kept ∨ ∃ c, p.pcrsUsed = [c] ∧
        (c ∈ pcrsDeduped ∨ 2 ≤ (pdrgpcnstrOnColumn l c true).length ∧
        ∀ pci, convert (pdrgpcnstrOnColumn l c true) c = some pci → .interval c pci ∈ kept) := by
  intro rest
  induction rest with
  | nil => exact fun _ _ => ⟨[], rfl, nofun, nofun⟩
  | cons p rest ih =>
    intro hrest pcrsDeduped
    have hp := hrest p mem_cons_self
    have ih := ih fun q hq => hrest q (mem_cons_of_mem p hq)
    rw [deduplicateLoop]
    split
    · next c hc =>
      split
      · obtain ⟨kept, hkept, hin, hout⟩ := ih pcrsDeduped
        exact ⟨kept, hkept, hin, by grind⟩
      rw [lookup_eq hp hc, Option.bind_some]
      have hpos := length_pos_of_mem (mem_onColumn.mpr ⟨hp, hc⟩)
      split
      · obtain ⟨kept, hkept, hin, hout⟩ := ih pcrsDeduped
        exact ⟨p :: kept, by simp [hkept], by grind, by grind⟩
      obtain ⟨kept, hkept, hin, hout⟩ := ih (c :: pcrsDeduped)
      refine ⟨_, by rw [hkept]; rfl, ?_, ?_⟩
      · cases hpci : convert (pdrgpcnstrOnColumn l c true) c <;> grind [Option.elim]
      · cases hpci : convert (pdrgpcnstrOnColumn l c true) c <;> grind [Option.elim]
    · obtain ⟨kept, hkept, hin, hout⟩ := ih pcrsDeduped
      exact ⟨p :: kept, by simp [hkept], by grind, by grind⟩

/-! ## Rows -/

variable [∀ c, LinearOrder (α c)]

/-- The row satisfies the constraint. It is two-valued: a row without a value of the column
satisfies a negation if it does not satisfy the constraint under it. -/
def CConstraint.Sat (row : (c : κ) → Option (α c)) : CConstraint α → Prop
  | .interval colref pci => pci.Has (row colref)
  | .conjunction _ children => ∀ p, ∀ _ : p ∈ children, p.Sat row
  | .disjunction _ children => ∃ p, ∃ _ : p ∈ children, p.Sat row
  | .negation pcnstr => ¬ pcnstr.Sat row

/-- The row satisfies the children: all of them, or one. -/
def Satisfies (ect : EConstraintType) (l : List (CConstraint α)) (row : (c : κ) → Option (α c)) :
    Prop :=
  match ect with
  | .EctConjunction => ∀ p ∈ l, p.Sat row
  | .EctDisjunction => ∃ p ∈ l, p.Sat row

/-- What is assumed of the conversion: the interval of a column has all values for which its
predicate is true. -/
def Contains (ect : EConstraintType) (convert : Conversion α) (l : List (CConstraint α)) : Prop :=
  ∀ c pci, convert (pdrgpcnstrOnColumn l c true) c = some pci →
    ∀ row, Satisfies ect (pdrgpcnstrOnColumn l c true) row → pci.Has (row c)

omit [DecidableEq κ] in
theorem satisfies_flattened {ect : EConstraintType} {row : (c : κ) → Option (α c)} :
    Satisfies ect (flattened ect l) row ↔ Satisfies ect l row := by
  induction l with
  | nil => cases ect <;> simp [Satisfies, flattened]
  | cons p l ih =>
    unfold flattened at ih ⊢
    rw [flatMap_cons]
    cases ect with
    | EctConjunction =>
      simp only [Satisfies, forall_mem_append, forall_mem_cons] at ih ⊢
      rw [ih]
      cases p <;> simp [CConstraint.Sat]
    | EctDisjunction =>
      simp only [Satisfies, mem_append, or_and_right, exists_or, exists_mem_cons_iff] at ih ⊢
      rw [ih]
      cases p <;> simp [CConstraint.Sat]

end

/-- The interval of one value of column 0. -/
def onlyValue (x : ℤ) : CConstraint fun _ : ℕ => ℤ :=
  .interval 0 ⟨[⟨some x, .EriIncluded, some x, .EriIncluded⟩], false⟩

theorem sat_onlyValue {x : ℤ} {row : ℕ → Option ℤ} : (onlyValue x).Sat row ↔ row 0 = some x := by
  rw [onlyValue, CConstraint.Sat]
  cases row 0 with
  | none => simp [CConstraintInterval.Has]
  | some y =>
    simp [CConstraintInterval.Has, CRange.has_iff]
    omega

/-- What the conversion makes of the values 1 and 2. -/
def oneOrTwo : CConstraintInterval ℤ := ⟨[⟨some 1, .EriIncluded, some 1, .EriIncluded⟩,
  ⟨some 2, .EriIncluded, some 2, .EriIncluded⟩], false⟩

end PolemoDB.Gporca
