import Mathlib.Logic.Basic
import PolemoDB.Optimizer.ValueSet

/-!
# What the inferred set of possible values covers

The sets are compared with `equal()`, which asks for the same type, type modifier, collation and
bytes, while a row is compared with the equality of the operator family. A qualification is reduced
to its leaves, the atoms at which the recursion of `DeterminePossibleValueSet` ends.

Principal results: `determinePossibleValueSet_hits` (a row that makes the qualification true and
whose true atoms all stand for one constant finds that constant in the set),
`determinePossibleValueSet_covers_iff` (for which atoms every nesting of AND and OR keeps every
value) and `possibleValues_lost` (an integer column compared in two widths, and the two zeros).
-/

namespace PolemoDB.Optimizer

open PolemoDB.Lib List Option Clause PolemoDB.Optimizer.Const

/-! ## Equality of constants -/

theorem Const.equal_iff (a b : Const) : a.equal b = true ↔
    a.consttype = b.consttype ∧ a.consttypmod = b.consttypmod ∧ a.constcollid = b.constcollid ∧
      a.constlen = b.constlen ∧ a.constisnull = b.constisnull ∧ a.constbyval = b.constbyval ∧
      (a.constisnull = true ∨ a.constvalue = b.constvalue) := by
  simp [equal, datumIsEqual, and_assoc]

theorem Const.equal_refl (a : Const) : a.equal a = true := by
  simp [equal_iff]

theorem Const.equal_symm {a b : Const} (h : a.equal b = true) : b.equal a = true := by
  rw [equal_iff] at h ⊢
  obtain ⟨h1, h2, h3, h4, h5, h6, h7⟩ := h
  exact ⟨h1.symm, h2.symm, h3.symm, h4.symm, h5.symm, h6.symm, h7.imp (h5 ▸ ·) Eq.symm⟩

variable {c : Const} {cat : Catalog} {a : Clause} {opno type : Oid} {v : Int} (vs : List Const)

theorem Const.equal_trans {a b : Const} (h : a.equal b = true) (h' : b.equal c = true) :
    a.equal c = true := by
  rw [equal_iff] at h h' ⊢
  obtain ⟨h1, h2, h3, h4, h5, h6, h7⟩ := h
  obtain ⟨g1, g2, g3, g4, g5, g6, g7⟩ := h'
  refine ⟨h1.trans g1, h2.trans g2, h3.trans g3, h4.trans g4, h5.trans g5, h6.trans g6, ?_⟩
  rcases h7 with h7 | h7
  · exact .inl h7
  · exact g7.imp (h5 ▸ ·) h7.trans

/-! ## The operations on sets -/

section

variable (pvs : PossibleValueSet)

abbrev PossibleValueSet.values : List Const := getPossibleValuesAsArray pvs

theorem containsValue_iff (v : Const) :
    containsValue pvs v = true ↔ ∃ c ∈ pvs.values, c.equal v = true := by
  rcases pvs with ⟨any, _ | s⟩ <;>
    simp [containsValue, PossibleValueSet.values, getPossibleValuesAsArray]

theorem addValue_isAny (v : Const) :
    (addValue pvs v).isAnyValuePossible = pvs.isAnyValuePossible := by
  unfold addValue
  split <;> rfl

theorem mem_addValue_of_mem {pvs : PossibleValueSet} {v : Const} (h : c ∈ pvs.values) :
    c ∈ (addValue pvs v).values := by
  unfold addValue
  split
  · exact h
  · exact mem_append_left _ h

theorem exists_mem_addValue (v : Const) : ∃ c ∈ (addValue pvs v).values, c.equal v = true := by
  by_cases hc : containsValue pvs v = true
  · rw [addValue, if_pos hc]
    exact (containsValue_iff pvs v).1 hc
  · rw [addValue, if_neg hc]
    exact ⟨v, mem_append_right _ (mem_singleton.2 rfl), v.equal_refl⟩

end

theorem foldl_addValue_isAny (pvs : PossibleValueSet) :
    (vs.foldl addValue pvs).isAnyValuePossible = pvs.isAnyValuePossible := by
  induction vs generalizing pvs with
  | nil => rfl
  | cons v vs ih => exact (ih _).trans (addValue_isAny pvs v)

theorem mem_foldl_addValue_of_mem : ∀ {pvs : PossibleValueSet},
    c ∈ pvs.values → c ∈ (vs.foldl addValue pvs).values := by
  induction vs with
  | nil => exact fun h => h
  | cons v vs ih => exact fun h => ih (mem_addValue_of_mem h)

/-- **Union**: every constant of the second set is in the result up to `equal()`. -/
theorem exists_mem_foldl_addValue : ∀ (pvs : PossibleValueSet),
    c ∈ vs → ∃ c' ∈ (vs.foldl addValue pvs).values, c'.equal c = true := by
  induction vs with
  | nil => exact nofun
  | cons v vs ih =>
    intro pvs h
    rcases mem_cons.1 h with rfl | h
    · obtain ⟨c', hc', he⟩ := exists_mem_addValue pvs c
      exact ⟨c', mem_foldl_addValue_of_mem vs hc', he⟩
    · exact ih _ h

theorem removeValue_values (pvs : PossibleValueSet) (v : Const) :
    (removeValue pvs v).values = pvs.values.eraseP (·.equal v) := by
  rcases pvs with ⟨any, _ | s⟩ <;> rfl

theorem mem_foldl_removeValue (hc : ∀ v ∈ vs, ¬ c.equal v = true) {pvs : PossibleValueSet}
    (h : c ∈ pvs.values) : c ∈ (vs.foldl removeValue pvs).values := by
  induction vs generalizing pvs with
  | nil => exact h
  | cons v vs ih =>
    refine ih (fun w hw => hc w (mem_cons_of_mem _ hw)) ?_
    rw [removeValue_values]
    exact (mem_eraseP_of_neg (p := fun e => e.equal v) (hc v mem_cons_self)).2 h

/-- **Intersection** keeps a constant that the second set contains. -/
theorem mem_removeUnmatchingValues {pvs toCheck : PossibleValueSet} (h : c ∈ pvs.values)
    (hc : containsValue toCheck c = true) : c ∈ (removeUnmatchingValues pvs toCheck).values := by
  refine mem_foldl_removeValue _ (fun v hv hcv => ?_) h
  -- a removed value equal to `c` would itself be contained in `toCheck`
  have hnot : containsValue toCheck v = false := by simpa using (mem_filter.1 hv).2
  obtain ⟨d, hd, hdc⟩ := (containsValue_iff _ _).1 hc
  have hv' := (containsValue_iff toCheck v).2 ⟨d, hd, equal_trans hdc hcv⟩
  rw [hnot] at hv'
  exact Bool.false_ne_true hv'

/-! ## AND and OR over sets

`T` is a class of constants closed under `equal()`, later those that a true atom stands for. -/

/-- If the set is finite it holds a constant of the class. -/
def Hits (T : Const → Prop) (pvs : PossibleValueSet) : Prop :=
  pvs.isAnyValuePossible = false → ∃ c ∈ pvs.values, T c

section Connectives

variable {T : Const → Prop}

section

variable (hT : ∀ c c', T c → T c' → c.equal c' = true)
include hT

theorem Hits.andStep {r ch : PossibleValueSet} (hr : Hits T r) (hch : Hits T ch) :
    Hits T (andStep r ch) := by
  unfold Optimizer.andStep
  split
  · exact hr
  split
  · exact hch
  rename_i hany hrany
  intro _
  obtain ⟨c, hc, hTc⟩ := hr (by simpa using hrany)
  obtain ⟨d, hd, hTd⟩ := hch (by simpa using hany)
  exact ⟨c, mem_removeUnmatchingValues hc ((containsValue_iff _ _).2 ⟨d, hd, hT d c hTd hTc⟩), hTc⟩

theorem hits_foldl_andStep (children : List PossibleValueSet)
    (hch : ∀ ch ∈ children, Hits T ch) {r : PossibleValueSet} (hr : Hits T r) :
    Hits T (children.foldl andStep r) := by
  induction children generalizing r with
  | nil => exact hr
  | cons ch rest ih =>
    exact ih (fun c hc => hch c (mem_cons_of_mem _ hc)) (hr.andStep hT (hch ch mem_cons_self))

/-- **AND**: if every member's set holds a constant of the class, so does their intersection. -/
theorem hits_processAnd {children : List PossibleValueSet}
    (hch : ∀ ch ∈ children, Hits T ch) : Hits T (processAndClauseForPossibleValues children) :=
  hits_foldl_andStep hT children hch (fun h => absurd h (by decide))

end

theorem orLoop_spec (children : List PossibleValueSet) {r : PossibleValueSet}
    (hfin : (orLoop r children).isAnyValuePossible = false) :
    (r.isAnyValuePossible = false → r.values ⊆ (orLoop r children).values) ∧
      ∀ ch ∈ children, ch.isAnyValuePossible = false ∧
        ∀ c ∈ ch.values, ∃ c' ∈ (orLoop r children).values, c'.equal c = true := by
  induction children generalizing r with
  | nil => exact ⟨fun _ _ h => h, fun ch hch => absurd hch not_mem_nil⟩
  | cons ch₀ rest ih =>
    rw [orLoop] at hfin ⊢
    split at hfin
    · exact absurd hfin (by simp [deletePossibleValueSetData])
    rename_i hch₀
    have hch₀' : ch₀.isAnyValuePossible = false := by simpa using hch₀
    rw [if_neg hch₀]
    split at hfin
    next hr =>
      obtain ⟨hkeeps, htakes⟩ := ih hfin
      rw [if_pos hr]
      refine ⟨fun hr' => absurd (hr'.symm.trans hr) Bool.false_ne_true,
        forall_mem_cons.2 ⟨⟨hch₀', fun c hc => ?_⟩, htakes⟩⟩
      exact ⟨c, hkeeps hch₀' hc, c.equal_refl⟩
    next hr =>
      obtain ⟨hkeeps, htakes⟩ := ih hfin
      rw [addUnmatchingValues, foldl_addValue_isAny] at hkeeps
      have hr' : r.isAnyValuePossible = false := by simpa using hr
      rw [if_neg hr]
      refine ⟨fun _ c hc => hkeeps hr' (mem_foldl_addValue_of_mem _ hc),
        forall_mem_cons.2 ⟨⟨hch₀', fun c hc => ?_⟩, htakes⟩⟩
      obtain ⟨c', hc', he⟩ := exists_mem_foldl_addValue ch₀.values r hc
      exact ⟨c', hkeeps hr' hc', he⟩

/-- **OR**: if some member's set holds a constant of the class, so does their union. -/
theorem hits_processOr (hT : ∀ c c', T c → c'.equal c = true → T c')
    {children : List PossibleValueSet} {ch : PossibleValueSet} (hmem : ch ∈ children)
    (hch : Hits T ch) :
    Hits T (processOrClauseForPossibleValues children) := by
  intro hfin
  obtain ⟨hany, htakes⟩ := (orLoop_spec children hfin).2 ch hmem
  obtain ⟨c, hc, hTc⟩ := hch hany
  obtain ⟨c', hc', he⟩ := htakes c hc
  exact ⟨c', hc', hT c c' hTc he⟩

end Connectives

/-! ## Leaves -/

mutual

/-- The atoms at which the recursion over a qualification ends. -/
def Clause.leaves (cat : Catalog) : Clause → List Clause
  | .list args => leavesAll cat args
  | .boolExpr .AND_EXPR args => leavesAll cat args
  | .boolExpr .OR_EXPR args => leavesAll cat args
  | .scalarArrayOpExpr opno useOr scalar array =>
    (arrayChildren cat opno scalar array).getD [.scalarArrayOpExpr opno useOr scalar array]
  | clause => [clause]

def leavesAll (cat : Catalog) : List Clause → List Clause
  | [] => []
  | c :: cs => c.leaves cat ++ leavesAll cat cs

end

/-- `predicate_classify` returns `CLASS_ATOM`. -/
def Clause.IsAtom (cat : Catalog) : Clause → Prop
  | .list _ => False
  | .boolExpr .AND_EXPR _ => False
  | .boolExpr .OR_EXPR _ => False
  | .scalarArrayOpExpr opno _ scalar array => arrayChildren cat opno scalar array = none
  | _ => True

theorem Clause.IsAtom.leaf (h : a.IsAtom cat) (opfamily : Oid) (x : Var) : a.leaves cat = [a] ∧
      determinePossibleValueSet cat opfamily x a = possibleValuesOfAtom cat opfamily x a := by
  cases a with
  | list args => exact h.elim
  | boolExpr boolop args =>
    cases boolop with
    | AND_EXPR | OR_EXPR => exact h.elim
    | NOT_EXPR => exact ⟨by simp [leaves], by simp [determinePossibleValueSet]⟩
  | opExpr opno args | nullTest t arg | other id =>
    exact ⟨by simp [leaves], by simp [determinePossibleValueSet]⟩
  | scalarArrayOpExpr opno useOr scalar array =>
    have h' : arrayChildren cat opno scalar array = none := h
    exact ⟨by simp [leaves, h'], by simp [determinePossibleValueSet, h']⟩

theorem mem_leavesAll {c : Clause} {cs : List Clause} (hc : c ∈ cs) (ha : a ∈ c.leaves cat) :
    a ∈ leavesAll cat cs := by
  induction cs with
  | nil => exact absurd hc not_mem_nil
  | cons d ds ih =>
    rcases mem_cons.1 hc with rfl | hc
    · exact mem_append_left _ ha
    · exact mem_append_right _ (ih hc)

theorem determineAll_eq_map (cat : Catalog) (opfamily : Oid) (x : Var) (cs : List Clause) :
    determineAll cat opfamily x cs = cs.map (determinePossibleValueSet cat opfamily x) := by
  induction cs with
  | nil => rfl
  | cons c cs ih => rw [determineAll, ih, map_cons]

theorem evalAll_eq_map (op : OpSem) (env : Env) (cs : List Clause) :
    evalAll op env cs = cs.map (eval op env) := by
  induction cs with
  | nil => rfl
  | cons c cs ih => rw [evalAll, ih, map_cons]

theorem eval_arrayChildren {op : OpSem} {env : Env} {scalar : Arg}
    {array : ArrayArg} {children : List Clause}
    (h : arrayChildren cat opno scalar array = some children)
    (useOr : Bool) : (scalarArrayOpExpr opno useOr scalar array).eval op env =
      (if useOr then disj3 else conj3) (children.map (eval op env)) := by
  have key : ∃ elems, array.eval env = some elems ∧
      elems.map (fun e => op opno [scalar.eval env, e]) = children.map (eval op env) := by
    cases array with
    | const isnull coll elemtype elems =>
      rw [arrayChildren] at h
      split at h <;> cases h
      next hn =>
        have hnull : isnull = false := by
          cases isnull
          · rfl
          · simp at hn
        refine ⟨elems, by rw [ArrayArg.eval, hnull]; rfl, ?_⟩
        rw [List.map_map]
        refine map_congr_left fun e _ => ?_
        cases e <;> simp [eval, Arg.eval, arrayElementConst]
    | arrayExpr multidims elements =>
      rw [arrayChildren] at h
      split at h <;> cases h
      next hn =>
        cases multidims
        · refine ⟨elements.map (Arg.eval env), rfl, ?_⟩
          rw [List.map_map, List.map_map]
          exact map_congr_left fun e _ => by simp [eval]
        · exact absurd hn (by simp)
    | other id => exact absurd h (by simp [arrayChildren])
  obtain ⟨elems, he, hmap⟩ := key
  rw [eval, he]
  dsimp only
  rw [hmap]
  cases useOr <;> rfl

section Recursion

variable {cat : Catalog} {opfamily : Oid} {x : Var} {op : OpSem} {env : Env} {T : Const → Prop}

theorem hits_processAnd_map (hone : ∀ c c', T c → T c' → c.equal c' = true) {cs : List Clause}
    {f : Clause → PossibleValueSet} (hf : ∀ c ∈ cs, c.eval op env = some true → Hits T (f c))
    (htrue : conj3 (cs.map (eval op env)) = some true) :
    Hits T (processAndClauseForPossibleValues (cs.map f)) := by
  rw [conj3_eq_true] at htrue
  refine hits_processAnd hone fun ch hch => ?_
  obtain ⟨c, hc, rfl⟩ := List.mem_map.1 hch
  exact hf c hc (htrue _ (List.mem_map_of_mem hc))

theorem hits_processOr_map (hclosed : ∀ c c', T c → c'.equal c = true → T c') {cs : List Clause}
    {f : Clause → PossibleValueSet} (hf : ∀ c ∈ cs, c.eval op env = some true → Hits T (f c))
    (htrue : disj3 (cs.map (eval op env)) = some true) :
    Hits T (processOrClauseForPossibleValues (cs.map f)) := by
  rw [disj3_eq_true] at htrue
  obtain ⟨v, hv, hvt⟩ := htrue
  obtain ⟨c, hc, rfl⟩ := List.mem_map.1 hv
  exact hits_processOr hclosed (List.mem_map_of_mem hc) (hf c hc hvt)

theorem hits_of_atom {q : Clause} (hq : q.IsAtom cat)
    (hleaf : ∀ a ∈ q.leaves cat, a.eval op env = some true →
    Hits T (possibleValuesOfAtom cat opfamily x a))
    (htrue : q.eval op env = some true) : Hits T (determinePossibleValueSet cat opfamily x q) := by
  obtain ⟨hleaves, hdet⟩ := hq.leaf opfamily x
  rw [hdet]
  exact hleaf q (by rw [hleaves]; exact mem_singleton.2 rfl) htrue

/-- **The recursion over a qualification**: if every true leaf's own set meets a class of constants
that are all `equal()`, then so does the set of a qualification that is true. -/
theorem determinePossibleValueSet_hits (hone : ∀ c c', T c → T c' → c.equal c' = true)
    (hclosed : ∀ c c', T c → c'.equal c = true → T c') : ∀ q : Clause,
      (∀ a ∈ q.leaves cat, a.eval op env = some true →
        Hits T (possibleValuesOfAtom cat opfamily x a)) →
        q.eval op env = some true → Hits T (determinePossibleValueSet cat opfamily x q)
  | .list args | .boolExpr .AND_EXPR args => fun hleaf htrue => by
    rw [eval, evalAll_eq_map] at htrue
    rw [determinePossibleValueSet, determineAll_eq_map]
    exact hits_processAnd_map hone (fun c hc =>
      determinePossibleValueSet_hits hone hclosed c fun a ha => hleaf a (mem_leavesAll hc ha)) htrue
  | .boolExpr .OR_EXPR args => fun hleaf htrue => by
    rw [eval, evalAll_eq_map] at htrue
    rw [determinePossibleValueSet, determineAll_eq_map]
    exact hits_processOr_map hclosed (fun c hc =>
      determinePossibleValueSet_hits hone hclosed c fun a ha => hleaf a (mem_leavesAll hc ha)) htrue
  | .boolExpr .NOT_EXPR _ | .opExpr _ _ | .nullTest _ _ | .other _ => fun hleaf htrue =>
    hits_of_atom trivial hleaf htrue
  | .scalarArrayOpExpr opno useOr scalar array => fun hleaf htrue => by
    cases hch : arrayChildren cat opno scalar array with
    | none => exact hits_of_atom hch hleaf htrue
    | some children =>
      rw [determinePossibleValueSet, hch]
      rw [leaves, hch] at hleaf
      rw [eval_arrayChildren hch] at htrue
      cases useOr with
      | true => exact hits_processOr_map hclosed hleaf htrue
      | false => exact hits_processAnd_map hone hleaf htrue

end Recursion

/-! ## The equality of an operator family -/

/-- The three integer types that the cross-type path knows. -/
def IsIntType (type : Oid) : Prop := type = INT2OID ∨ type = INT4OID ∨ type = INT8OID

/-- What the catalog promises about a family's equality operators on values of the type `type`:
those with both operands of this type compute one equivalence relation, and those between two
integer types compare the integers. -/
structure FamilyEquality (cat : Catalog) (op : OpSem) (opfamily type : Oid) where
  eqv : Datum → Datum → Prop
  equiv : Equivalence eqv
  sameType : ∀ opno, opInOpfamily cat opno opfamily = true →
    equalityTypes cat opno = some (type, type) → ∀ a b, op opno [a, b] = some true ↔
    ∃ x y, a = some x ∧ b = some y ∧ eqv x y
  crossType : ∀ opno l r, opInOpfamily cat opno opfamily = true →
    equalityTypes cat opno = some (l, r) → l ≠ r → IsIntType l → IsIntType r → ∀ a b,
      op opno [a, b] = some true ↔ ∃ x y, a = some x ∧ b = some y ∧
      datumGetInt l x = datumGetInt r y
  ofInt : ∀ opno l r, opInOpfamily cat opno opfamily = true → equalityTypes cat opno = some (l, r) →
    l ≠ r → IsIntType l → IsIntType r → type = l ∨ type = r →
      ∀ x y, eqv x y ↔ datumGetInt type x = datumGetInt type y

/-- The constant is the null of a null value, or equal to the value in the family. -/
def FamilyEquality.Covers {cat : Catalog} {op : OpSem} {opfamily type : Oid}
    (E : FamilyEquality cat op opfamily type) (v : Option Datum) (c : Const) : Prop :=
  match v with
  | none => c.constisnull = true
  | some d => c.constisnull = false ∧ E.eqv d c.constvalue

/-- The operand types of a recognised comparison of the variable are those of the parser: two
operands, and on the variable's side the type `type`. -/
def Clause.WellTyped (cat : Catalog) (opfamily type : Oid) (x : Var) : Clause → Prop
  | .opExpr opno args => ∀ varExpr c onRight, splitOperands args = some (varExpr, c, onRight) →
      stripRelabel varExpr = .var x → opInOpfamily cat opno opfamily = true →
        ∀ l r, equalityTypes cat opno = some (l, r) → args.length = 2 ∧
        (if onRight then l else r) = type
  | _ => True

/-- The constant an atom stands for: that of an equality in the variable's type, the value of one
of another integer width brought to the variable's type, or null. -/
inductive StandsFor (cat : Catalog) (opfamily : Oid) (x : Var) : Clause → Const → Prop where
  | sameType {opno : Oid} {args : List Arg} {varExpr : Arg} {c : Const} {onRight : Bool} {t : Oid}
      (hargs : splitOperands args = some (varExpr, c, onRight)) (hnull : c.constisnull = false)
      (hvar : stripRelabel varExpr = .var x) (hfam : opInOpfamily cat opno opfamily = true)
      (heq : equalityTypes cat opno = some (t, t)) : StandsFor cat opfamily x (.opExpr opno args) c
  | otherWidth {opno : Oid} {args : List Arg} {varExpr : Arg} {c c' : Const} {onRight : Bool}
      {l r : Oid} {v : Int} (hargs : splitOperands args = some (varExpr, c, onRight))
      (hnull : c.constisnull = false) (hvar : stripRelabel varExpr = .var x)
      (hfam : opInOpfamily cat opno opfamily = true)
      (heq : equalityTypes cat opno = some (l, r)) (hne : l ≠ r)
      (hval : datumGetInt (if onRight then r else l) c.constvalue = some v)
      (hnew : assignToType (if onRight then l else r) v = some (false, c')) :
      StandsFor cat opfamily x (.opExpr opno args) c'
  | isNull {arg : Arg} (hvar : stripRelabel arg = .var x) :
      StandsFor cat opfamily x (.nullTest .IS_NULL arg)
      (makeNullConst cat x.vartype (-1) x.varcollid)

/-! ### Integers -/

theorem isIntType_of_switch {α : Type} {r₂ r₄ r₈ : Option α} {y : α}
    (h : (if type = INT2OID then r₂ else if type = INT4OID then r₄
      else if type = INT8OID then r₈ else none) = some y) : IsIntType type := by
  split at h
  · exact .inl ‹_›
  split at h
  · exact .inr (.inl ‹_›)
  split at h
  · exact .inr (.inr ‹_›)
  · exact absurd h (by simp)

theorem datumGetInt_isInt {d : Datum} (h : datumGetInt type d = some v) : IsIntType type :=
  isIntType_of_switch h

theorem assignToType_isInt {p : Bool × Const} (h : assignToType type v = some p) : IsIntType type :=
  isIntType_of_switch h

theorem setWidth_signExtend {n : Nat} (hn : n ≤ 64) (w : BitVec n) :
    (w.signExtend 64).setWidth n = w := by
  ext i hi
  rw [BitVec.getElem_setWidth, BitVec.getLsbD_signExtend, if_pos hi, decide_eq_true (by omega),
    Bool.true_and, BitVec.getLsbD_eq_getElem hi]

/-- **An integer of the type is assigned without overflow and read back.** -/
theorem assignToType_of_datumGetInt {d : Datum} {isOverflow : Bool}
    (hd : datumGetInt type d = some v) (h : assignToType type v = some (isOverflow, c)) :
    isOverflow = false ∧ c.constisnull = false ∧ datumGetInt type c.constvalue = some v := by
  have hread : ∀ {n : Nat}, n ≤ 64 → ∀ w : BitVec n,
      (((BitVec.ofInt n w.toInt).signExtend 64).setWidth n).toInt = w.toInt := fun hn w => by
    rw [setWidth_signExtend hn, BitVec.ofInt_toInt]
  rcases datumGetInt_isInt hd with rfl | rfl | rfl
  · obtain rfl : (d.toWord.setWidth 16).toInt = v := some.inj hd
    obtain ⟨rfl, rfl⟩ := Prod.mk.inj (some.inj h)
    have hlo := BitVec.le_toInt (d.toWord.setWidth 16)
    have hhi := BitVec.toInt_lt (x := d.toWord.setWidth 16)
    exact ⟨decide_eq_false (by omega), rfl, congrArg some (hread (by decide) _)⟩
  · obtain rfl : (d.toWord.setWidth 32).toInt = v := some.inj hd
    obtain ⟨rfl, rfl⟩ := Prod.mk.inj (some.inj h)
    have hlo := BitVec.le_toInt (d.toWord.setWidth 32)
    have hhi := BitVec.toInt_lt (x := d.toWord.setWidth 32)
    exact ⟨decide_eq_false (by omega), rfl, congrArg some (hread (by decide) _)⟩
  · obtain rfl : d.toWord.toInt = v := some.inj hd
    obtain ⟨rfl, rfl⟩ := Prod.mk.inj (some.inj h)
    refine ⟨rfl, rfl, ?_⟩
    show some (BitVec.ofInt 64 _).toInt = _
    rw [BitVec.ofInt_toInt]

/-! ## Atoms -/

section Atoms

variable {cat : Catalog} {op : OpSem} {opfamily type : Oid} {x : Var}

theorem eval_stripRelabel (env : Env) (a : Arg) : (stripRelabel a).eval env = a.eval env := by
  cases a <;> rfl

variable {args : List Arg} {varExpr : Arg} {c : Const} {onRight : Bool} {env : Env} {a : Clause}

section

variable (h : splitOperands args = some (varExpr, c, onRight)) (hlen : args.length = 2)
include h hlen

theorem splitOperands_cases :
    args = if onRight then [varExpr, .const c] else [.const c, varExpr] := by
  match args, hlen with
  | [l, r], _ =>
    unfold splitOperands at h
    dsimp only at h
    split at h
    · cases h; rfl
    · cases h; rfl
    · exact absurd h (by simp)

/-- Two operands, of which one is the variable and the other a constant that is not null, in their
order. -/
theorem eval_operands (hvar : stripRelabel varExpr = .var x) (hnull : c.constisnull = false)
    (env : Env) : args.map (Arg.eval env) =
      if onRight then [env.var x, some c.constvalue] else [some c.constvalue, env.var x] := by
  have hv : varExpr.eval env = env.var x := by rw [← eval_stripRelabel, hvar]; rfl
  have hc : (Arg.const c).eval env = some c.constvalue := by rw [Arg.eval, hnull]; rfl
  rw [splitOperands_cases h hlen]
  cases onRight <;> simp [hv, hc]

end

/-- **A true equality between two integer widths**: the variable has the constant's value, in its
own type. -/
theorem crossType_value (E : FamilyEquality cat op opfamily type) {opno : Oid}
    (hw : (opExpr opno args).WellTyped cat opfamily type x)
    {l r : Oid} {v : Int} (hargs : splitOperands args = some (varExpr, c, onRight))
    (hnull : c.constisnull = false) (hvar : stripRelabel varExpr = .var x)
    (hfam : opInOpfamily cat opno opfamily = true) (heq : equalityTypes cat opno = some (l, r))
    (hne : l ≠ r) (hval : datumGetInt (if onRight then r else l) c.constvalue = some v)
    (hvi : IsIntType (if onRight then l else r))
    (htrue : (opExpr opno args).eval op env = some true) :
    ∃ d, env.var x = some d ∧ datumGetInt type d = some v := by
  obtain ⟨hlen, ht⟩ := hw _ _ _ hargs hvar hfam l r heq
  rw [eval, eval_operands hargs hlen hvar hnull] at htrue
  have hci := datumGetInt_isInt hval
  cases onRight with
  | true =>
    obtain ⟨d, e, hd, he, hde⟩ := (E.crossType opno l r hfam heq hne hvi hci _ _).1 htrue
    cases he
    exact ⟨d, hd, ht ▸ hde.trans hval⟩
  | false =>
    obtain ⟨e, d, he, hd, hde⟩ := (E.crossType opno l r hfam heq hne hci hvi _ _).1 htrue
    cases he
    exact ⟨d, hd, ht ▸ hde.symm.trans hval⟩

/-- **A true atom's constant covers the value.** -/
theorem StandsFor.covers (E : FamilyEquality cat op opfamily type)
    (h : StandsFor cat opfamily x a c) (hw : a.WellTyped cat opfamily type x)
    (htrue : a.eval op env = some true) : E.Covers (env.var x) c := by
  cases h with
  | @sameType opno args varExpr _ onRight t hargs hnull hvar hfam heq =>
    obtain ⟨hlen, ht⟩ := hw _ _ _ hargs hvar hfam t t heq
    rw [eval, eval_operands hargs hlen hvar hnull] at htrue
    subst ht
    -- the constant may stand on either side; the relation is symmetric
    cases onRight with
    | true =>
      obtain ⟨d, e, hd, he, hde⟩ := (E.sameType opno hfam heq _ _).1 htrue
      cases he
      rw [hd]
      exact ⟨hnull, hde⟩
    | false =>
      obtain ⟨e, d, he, hd, hde⟩ := (E.sameType opno hfam heq _ _).1 htrue
      cases he
      rw [hd]
      exact ⟨hnull, E.equiv.symm hde⟩
  | @otherWidth opno args varExpr c₀ _ onRight l r v hargs hnull hvar hfam heq hne hval hnew =>
    have hci := datumGetInt_isInt hval
    have hvi := assignToType_isInt hnew
    obtain ⟨d, hd, hdv⟩ := crossType_value E hw hargs hnull hvar hfam heq hne hval hvi htrue
    have ht := (hw _ _ _ hargs hvar hfam l r heq).2
    rw [ht] at hnew
    obtain ⟨-, hnull', hcv⟩ := assignToType_of_datumGetInt hdv hnew
    have hint : ∀ x y, E.eqv x y ↔ datumGetInt type x = datumGetInt type y := by
      cases onRight with
      | true => exact E.ofInt opno l r hfam heq hne hvi hci (.inl ht.symm)
      | false => exact E.ofInt opno l r hfam heq hne hci hvi (.inr ht.symm)
    rw [hd]
    exact ⟨hnull', (hint _ _).2 (hdv.trans hcv.symm)⟩
  | @isNull arg hvar =>
    rw [eval, ← eval_stripRelabel, hvar, some.injEq] at htrue
    have hnone : env.var x = none := isNone_iff_eq_none.1 htrue
    rw [hnone]
    rfl

theorem StandsFor.possibleValuesOfAtom_eq (h : StandsFor cat opfamily x a c) :
    possibleValuesOfAtom cat opfamily x a = ⟨false, some [c]⟩ := by
  cases h with
  | @sameType opno args varExpr _ onRight t hargs hnull hvar hfam heq =>
    simp [possibleValuesOfAtom, tryProcessExprForPossibleValues, tryProcessOpExprForPossibleValues,
      hargs, hnull, hvar, hfam, heq, processEquality, addValue, containsValue]
  | @otherWidth opno args varExpr c₀ _ onRight l r v hargs hnull hvar hfam heq hne hval hnew =>
    simp [possibleValuesOfAtom, tryProcessExprForPossibleValues, tryProcessOpExprForPossibleValues,
      hargs, hnull, hvar, hfam, heq, processEquality, hne, hval, hnew, addValue, containsValue]
  | @isNull arg hvar =>
    simp [possibleValuesOfAtom, tryProcessExprForPossibleValues,
      tryProcessNullTestForPossibleValues, hvar, addValue, containsValue]

/-- **What a true atom's finite set is**: the one constant it stands for. An overflow, which leaves
no value, belongs to an equality that no row satisfies. -/
theorem standsFor_of_finite (E : FamilyEquality cat op opfamily type)
    (hw : a.WellTyped cat opfamily type x) (htrue : a.eval op env = some true)
    (hfin : (possibleValuesOfAtom cat opfamily x a).isAnyValuePossible = false) :
    ∃ c, StandsFor cat opfamily x a c := by
  cases a with
  | opExpr opno args =>
    rw [possibleValuesOfAtom, tryProcessExprForPossibleValues] at hfin
    unfold tryProcessOpExprForPossibleValues at hfin
    split at hfin
    · cases hfin
    rename_i varExpr c onRight hargs
    split at hfin
    · cases hfin
    rename_i hnull
    split at hfin
    · cases hfin
    rename_i hvar
    split at hfin
    · cases hfin
    rename_i hfam
    split at hfin
    · cases hfin
    rename_i l r heq
    have hnull' : c.constisnull = false := by simpa using hnull
    have hvar' : stripRelabel varExpr = .var x := by simpa using hvar
    have hfam' : opInOpfamily cat opno opfamily = true := by simpa using hfam
    unfold processEquality at hfin
    split at hfin
    next hlr =>
      subst hlr
      exact ⟨c, .sameType hargs hnull' hvar' hfam' heq⟩
    rename_i hne
    dsimp only at hfin
    split at hfin
    · cases hfin
    rename_i v hval
    split at hfin
    · cases hfin
    rename_i isOverflow newConst hnew
    obtain ⟨d, -, hdv⟩ :=
      crossType_value E hw hargs hnull' hvar' hfam' heq hne hval (assignToType_isInt hnew) htrue
    have ht := (hw _ _ _ hargs hvar' hfam' l r heq).2
    obtain ⟨rfl, -⟩ := assignToType_of_datumGetInt hdv (ht ▸ hnew)
    exact ⟨newConst, .otherWidth hargs hnull' hvar' hfam' heq hne hval hnew⟩
  | nullTest t arg =>
    rw [possibleValuesOfAtom, tryProcessExprForPossibleValues] at hfin
    unfold tryProcessNullTestForPossibleValues at hfin
    split at hfin
    · cases hfin
    rename_i hvar
    cases t with
    | IS_NULL => exact ⟨_, .isNull (by simpa using hvar)⟩
    | IS_NOT_NULL => cases hfin
  | list args | boolExpr boolop args | scalarArrayOpExpr opno useOr scalar array | other id =>
    cases hfin

end Atoms

/-! ## Every nesting of AND and OR -/

section Nesting

variable {cat : Catalog} {op : OpSem} {opfamily type : Oid} {x : Var}
  (E : FamilyEquality cat op opfamily type)

/-- If the set is finite, every value for which the qualification can be true is covered by one of
its members. -/
def KeepsValues (x : Var) (q : Clause) : Prop :=
  (determinePossibleValueSet cat opfamily x q).isAnyValuePossible = false →
    ∀ env : Env, q.eval op env = some true →
      ∃ c ∈ getPossibleValuesAsArray (determinePossibleValueSet cat opfamily x q),
      E.Covers (env.var x) c

theorem not_keepsValues_of_empty {q : Clause} (env : Env)
    (hempty : determinePossibleValueSet cat opfamily x q = ⟨false, some []⟩)
    (htrue : q.eval op env = some true) : ¬ KeepsValues E x q := by
  intro h
  rw [KeepsValues, hempty] at h
  obtain ⟨c, hc, -⟩ := h rfl env htrue
  exact absurd hc not_mem_nil

theorem FamilyEquality.Covers.of_equal {v : Option Datum}
    {c c' : Const} (h : E.Covers v c) (he : c'.equal c = true) : E.Covers v c' := by
  rw [equal_iff] at he
  obtain ⟨-, -, -, -, hnull, -, hval⟩ := he
  cases v with
  | none => exact hnull.trans h
  | some d =>
    have hn : c'.constisnull = false := hnull.trans h.1
    refine ⟨hn, ?_⟩
    rcases hval with hval | hval
    · exact absurd (hn.symm.trans hval) Bool.false_ne_true
    · exact hval ▸ h.2

/-- **One constant per value is enough**: if the atoms of a qualification that one row makes true
all stand for `equal()` constants, its set covers every value. -/
theorem keepsValues_of_oneConstant {q : Clause}
    (hw : ∀ a ∈ q.leaves cat, a.WellTyped cat opfamily type x)
    (hone : ∀ a ∈ q.leaves cat, ∀ b ∈ q.leaves cat, ∀ c c' : Const, StandsFor cat opfamily x a c →
      StandsFor cat opfamily x b c' → ∀ env : Env, a.eval op env = some true →
        b.eval op env = some true → c.equal c' = true) : KeepsValues E x q := by
  intro hfin env htrue
  -- the class: constants equal to one that a true leaf stands for
  have hits : Hits (fun c => ∃ a ∈ q.leaves cat, a.eval op env = some true ∧
      ∃ n, StandsFor cat opfamily x a n ∧ c.equal n = true)
      (determinePossibleValueSet cat opfamily x q) := by
    refine determinePossibleValueSet_hits ?_ ?_ q (fun a ha hat hafin => ?_) htrue
    · rintro c c' ⟨a, ha, hat, n, hn, hcn⟩ ⟨b, hb, hbt, m, hm, hcm⟩
      exact equal_trans (equal_trans hcn (hone a ha b hb n m hn hm env hat hbt)) (equal_symm hcm)
    · rintro c c' ⟨a, ha, hat, n, hn, hcn⟩ he
      exact ⟨a, ha, hat, n, hn, equal_trans he hcn⟩
    · obtain ⟨c, hc⟩ := standsFor_of_finite E (hw a ha) hat hafin
      refine ⟨c, ?_, a, ha, hat, c, hc, c.equal_refl⟩
      rw [hc.possibleValuesOfAtom_eq]
      exact mem_singleton.2 rfl
  obtain ⟨c, hc, a, ha, hat, n, hn, hcn⟩ := hits hfin
  exact ⟨c, hc, (hn.covers E (hw a ha) hat).of_equal E hcn⟩

theorem determinePossibleValueSet_pair {a b : Clause} {c c' : Const} (ha : a.IsAtom cat)
    (hb : b.IsAtom cat) (hc : StandsFor cat opfamily x a c) (hc' : StandsFor cat opfamily x b c') :
    determinePossibleValueSet cat opfamily x (.list [a, b]) =
      ⟨false, some (if c'.equal c then [c] else [])⟩ := by
  rw [determinePossibleValueSet, determineAll_eq_map, map_cons, map_cons, map_nil,
    (ha.leaf opfamily x).2, (hb.leaf opfamily x).2, hc.possibleValuesOfAtom_eq,
    hc'.possibleValuesOfAtom_eq]
  by_cases he : c'.equal c = true
  · simp [processAndClauseForPossibleValues, andStep, initPossibleValueSetData,
      removeUnmatchingValues, containsValue, he]
  · simp [processAndClauseForPossibleValues, andStep, initPossibleValueSetData,
      removeUnmatchingValues, containsValue, he, removeValue, c.equal_refl]

/-- **Which atoms can be nested**: over a stock of atoms, every nesting of AND and OR (implicit
lists and short arrays included) keeps every value exactly if any two atoms of the stock that one
row makes true stand for `equal()` constants. -/
theorem determinePossibleValueSet_covers_iff (E : FamilyEquality cat op opfamily type)
    (stock : Clause → Prop)
    (hstock : ∀ a, stock a → a.IsAtom cat ∧ a.WellTyped cat opfamily type x) :
    (∀ q : Clause, (∀ a ∈ q.leaves cat, stock a) → KeepsValues E x q) ↔
      ∀ a b, stock a → stock b → ∀ c c' : Const, StandsFor cat opfamily x a c →
        StandsFor cat opfamily x b c' → ∀ env : Env, a.eval op env = some true →
          b.eval op env = some true → c.equal c' = true := by
  constructor
  · intro hkeep a b ha hb c c' hc hc' env hat hbt
    obtain ⟨haa, -⟩ := hstock a ha
    obtain ⟨hba, -⟩ := hstock b hb
    have hleaves : ∀ l ∈ (list [a, b]).leaves cat, stock l := by
      intro l hl
      rw [leaves, leavesAll, leavesAll, leavesAll, (haa.leaf opfamily x).1,
        (hba.leaf opfamily x).1] at hl
      rcases mem_cons.1 hl with rfl | hl
      · exact ha
      · obtain rfl := mem_singleton.1 (by simpa using hl)
        exact hb
    have hkeep' := hkeep (.list [a, b]) hleaves
    rw [KeepsValues, determinePossibleValueSet_pair haa hba hc hc'] at hkeep'
    obtain ⟨d, hd, -⟩ := hkeep' rfl env (by
      rw [eval, evalAll_eq_map, conj3_eq_true]
      simp [hat, hbt])
    by_cases he : c'.equal c = true
    · exact equal_symm he
    · rw [if_neg he] at hd
      exact absurd hd not_mem_nil
  · intro hone q hq
    exact keepsValues_of_oneConstant E (fun a ha => (hstock a (hq a ha)).2)
      (fun a ha b hb => hone a b (hq a ha) (hq b hb))

end Nesting

/-! ## An integer and a floating point column

The rows of `pg_amop` for three operators of the built-in families: `int4 = int4`, `int4 = int8`
and `float8 = float8`. -/

def HASH_AM_OID : Oid := 405
def FLOAT8OID : Oid := 701
def INTEGER_OPS_HASH : Oid := 1977
def FLOAT_OPS_HASH : Oid := 1972
def INT4EQ : Oid := 96
def INT48EQ : Oid := 15
def FLOAT8EQ : Oid := 670

def numberCatalog : Catalog where
  pgAmop := [⟨1976, INT4OID, INT4OID, BTEqualStrategyNumber, true, INT4EQ, BTREE_AM_OID⟩,
    ⟨1976, INT4OID, INT8OID, BTEqualStrategyNumber, true, INT48EQ, BTREE_AM_OID⟩,
    ⟨1970, FLOAT8OID, FLOAT8OID, BTEqualStrategyNumber, true, FLOAT8EQ, BTREE_AM_OID⟩,
    ⟨INTEGER_OPS_HASH, INT4OID, INT4OID, 1, true, INT4EQ, HASH_AM_OID⟩,
    ⟨INTEGER_OPS_HASH, INT4OID, INT8OID, 1, true, INT48EQ, HASH_AM_OID⟩,
    ⟨FLOAT_OPS_HASH, FLOAT8OID, FLOAT8OID, 1, true, FLOAT8EQ, HASH_AM_OID⟩]
  getNegator := fun _ => none
  getTyplenbyval := fun t => if t = INT4OID then (4, true) else (8, true)

/-- The class of a `float8` under `float8_eq`: the not-a-numbers are one class, and so are the two
zeros. -/
def float8Class (d : Datum) : BitVec 64 :=
  if 0x7ff0000000000000#64 < d.toWord &&& 0x7fffffffffffffff#64 then 0x7ff8000000000000#64
  else if d.toWord &&& 0x7fffffffffffffff#64 = 0 then 0 else d.toWord

/-- A strict operator of two operands. -/
def strictOp (p : Datum → Datum → Bool) : List (Option Datum) → Option Bool
  | [some a, some b] => some (p a b)
  | _ => none

theorem strictOp_decide (p : Datum → Datum → Prop) [DecidableRel p] (a b : Option Datum) :
    strictOp (fun x y => decide (p x y)) [a, b] = some true ↔
      ∃ x y, a = some x ∧ b = some y ∧ p x y := by
  cases a <;> cases b <;> simp [strictOp]

/-- The three operators. -/
def numberOp : OpSem := fun opno =>
  if opno = INT4EQ then strictOp fun a b => decide (datumGetInt INT4OID a = datumGetInt INT4OID b)
  else if opno = INT48EQ then
    strictOp fun a b => decide (datumGetInt INT4OID a = datumGetInt INT8OID b)
  else if opno = FLOAT8EQ then strictOp fun a b => decide (float8Class a = float8Class b)
  else fun _ => none

theorem numberCatalog_integer (h : opInOpfamily numberCatalog opno INTEGER_OPS_HASH = true) :
    opno = INT4EQ ∨ opno = INT48EQ := by
  simp [opInOpfamily, numberCatalog, INTEGER_OPS_HASH, FLOAT_OPS_HASH] at h
  exact h.imp Eq.symm Eq.symm

theorem numberCatalog_float (h : opInOpfamily numberCatalog opno FLOAT_OPS_HASH = true) :
    opno = FLOAT8EQ := by
  simp [opInOpfamily, numberCatalog, INTEGER_OPS_HASH, FLOAT_OPS_HASH] at h
  exact h.symm

/-- The equality of the integer family on `int4`. -/
def int4Equality : FamilyEquality numberCatalog numberOp INTEGER_OPS_HASH INT4OID where
  eqv a b := datumGetInt INT4OID a = datumGetInt INT4OID b
  equiv := ⟨fun _ => rfl, Eq.symm, Eq.trans⟩
  sameType := by
    intro opno hfam htypes a b
    rcases numberCatalog_integer hfam with rfl | rfl
    · exact strictOp_decide _ a b
    · exact absurd htypes (by decide)
  crossType := by
    intro opno l r hfam htypes hne _ _ a b
    rcases numberCatalog_integer hfam with rfl | rfl
    · obtain ⟨rfl, rfl⟩ := Prod.mk.inj (Option.some.inj htypes)
      exact absurd rfl hne
    · obtain ⟨rfl, rfl⟩ := Prod.mk.inj (Option.some.inj htypes)
      exact strictOp_decide (fun x y => datumGetInt INT4OID x = datumGetInt INT8OID y) a b
  ofInt := fun _ _ _ _ _ _ _ _ _ _ _ => Iff.rfl

def float8Equality : FamilyEquality numberCatalog numberOp FLOAT_OPS_HASH FLOAT8OID where
  eqv a b := float8Class a = float8Class b
  equiv := ⟨fun _ => rfl, Eq.symm, Eq.trans⟩
  sameType := by
    intro opno hfam htypes a b
    obtain rfl := numberCatalog_float hfam
    exact strictOp_decide _ a b
  crossType := by
    intro opno l r hfam htypes hne
    obtain rfl := numberCatalog_float hfam
    obtain ⟨rfl, rfl⟩ := Prod.mk.inj (Option.some.inj htypes)
    exact absurd rfl hne
  ofInt := by
    intro opno l r hfam htypes hne
    obtain rfl := numberCatalog_float hfam
    obtain ⟨rfl, rfl⟩ := Prod.mk.inj (Option.some.inj htypes)
    exact absurd rfl hne

/-- Column 1 of the relation, of a type. -/
def column (vartype : Oid) : Var := ⟨1, 1, vartype, -1, 0⟩

/-- A literal of a pass-by-value type, as the parser makes it. -/
def literal (consttype : Oid) (constlen : Int) (w : BitVec 64) : Const :=
  ⟨consttype, -1, 0, constlen, .word w, false, true⟩

/-- `column = literal`. -/
def columnEq (opno vartype consttype : Oid) (constlen : Int) (w : BitVec 64) : Clause :=
  .opExpr opno [.var (column vartype), .const (literal consttype constlen w)]

/-- A row whose column 1 has the value. -/
def rowOf (d : Datum) : Env := ⟨fun _ => some d, fun _ => none, fun _ => none, fun _ => none⟩

/-- `(i = 5 OR i = 6) AND (i = 5::int8 OR i = 7::int8)` for an `int4` column `i`. -/
def crossWidthQual : Clause := .list [
  .boolExpr .OR_EXPR [columnEq INT4EQ INT4OID INT4OID 4 5, columnEq INT4EQ INT4OID INT4OID 4 6],
  .boolExpr .OR_EXPR [columnEq INT48EQ INT4OID INT8OID 8 5, columnEq INT48EQ INT4OID INT8OID 8 7]]

/-- `(f = 0 OR f = 1) AND (f = '-0' OR f = 2)` for a `float8` column `f`. -/
def signedZeroQual : Clause := .list [.boolExpr .OR_EXPR [columnEq FLOAT8EQ FLOAT8OID FLOAT8OID 8 0,
    columnEq FLOAT8EQ FLOAT8OID FLOAT8OID 8 0x3ff0000000000000],
  .boolExpr .OR_EXPR [columnEq FLOAT8EQ FLOAT8OID FLOAT8OID 8 0x8000000000000000,
    columnEq FLOAT8EQ FLOAT8OID FLOAT8OID 8 0x4000000000000000]]

/-- **A lost value**: for an integer column compared in two widths, and for a floating point column
compared with both zeros, the set is empty although the row with 5 (with 0) satisfies the
qualification. -/
theorem possibleValues_lost : ¬ KeepsValues int4Equality (column INT4OID) crossWidthQual ∧
      ¬ KeepsValues float8Equality (column FLOAT8OID) signedZeroQual :=
  ⟨not_keepsValues_of_empty _ (rowOf (.word 5)) (by decide +kernel) (by decide +kernel),
    not_keepsValues_of_empty _ (rowOf (.word 0)) (by decide +kernel) (by decide +kernel)⟩

/-- The equalities `i = 5` and `i = 6` of an `int4` column with `int4` literals. -/
def sameWidthStock (a : Clause) : Prop :=
  a = columnEq INT4EQ INT4OID INT4OID 4 5 ∨ a = columnEq INT4EQ INT4OID INT4OID 4 6

theorem sameWidthStock_wellTyped (h : sameWidthStock a) :
    a.IsAtom numberCatalog ∧
    a.WellTyped numberCatalog INTEGER_OPS_HASH INT4OID (column INT4OID) := by
  rcases h with rfl | rfl <;>
    refine ⟨trivial, fun varExpr c onRight hargs _ _ l r htypes => ?_⟩ <;>
    obtain ⟨rfl, rfl⟩ := Prod.mk.inj (some.inj htypes) <;>
    exact ⟨rfl, ite_self _⟩

theorem standsFor_columnEq_int4 {w : BitVec 64}
    (h : StandsFor numberCatalog INTEGER_OPS_HASH (column INT4OID)
    (columnEq INT4EQ INT4OID INT4OID 4 w) c) : c = literal INT4OID 4 w := by
  have hval : possibleValuesOfAtom numberCatalog INTEGER_OPS_HASH (column INT4OID)
      (columnEq INT4EQ INT4OID INT4OID 4 w) = ⟨false, some [literal INT4OID 4 w]⟩ := rfl
  rw [h.possibleValuesOfAtom_eq] at hval
  cases hval
  rfl

theorem eval_columnEq_int4 {w : BitVec 64} {env : Env}
    (h : (columnEq INT4EQ INT4OID INT4OID 4 w).eval numberOp env = some true) :
    ∃ d, env.var (column INT4OID) = some d ∧
    datumGetInt INT4OID d = datumGetInt INT4OID (.word w) := by
  obtain ⟨d, e, hd, he, hde⟩ := (int4Equality.sameType INT4EQ (by decide) (by decide) _ _).1 h
  cases he
  exact ⟨d, hd, hde⟩

/-- Every nesting over `i = 5` and `i = 6` keeps every value. -/
theorem determinePossibleValueSet_covers_sameWidth :
    sameWidthStock (columnEq INT4EQ INT4OID INT4OID 4 5) ∧
      ∀ q : Clause, (∀ a ∈ q.leaves numberCatalog, sameWidthStock a) →
        KeepsValues int4Equality (column INT4OID) q := by
  refine ⟨.inl rfl, ?_⟩
  refine (determinePossibleValueSet_covers_iff int4Equality sameWidthStock
    fun a => sameWidthStock_wellTyped).2 ?_
  rintro a b (rfl | rfl) (rfl | rfl) c c' hc hc' env hat hbt <;>
    obtain rfl := standsFor_columnEq_int4 hc <;> obtain rfl := standsFor_columnEq_int4 hc' <;>
    obtain ⟨d, hd, hdv⟩ := eval_columnEq_int4 hat <;> obtain ⟨e, he, hev⟩ := eval_columnEq_int4 hbt
  · decide
  · cases hd.symm.trans he
    exact absurd (hdv.symm.trans hev) (by decide)
  · cases hd.symm.trans he
    exact absurd (hdv.symm.trans hev) (by decide)
  · decide

end PolemoDB.Optimizer
