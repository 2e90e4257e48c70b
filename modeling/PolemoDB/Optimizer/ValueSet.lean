import PolemoDB.Lib.Kleene

/-!
# Possible values of a variable (`optimizer/util/predtest_valueset.c`, `predtest.c`)

* `Const`, `Var`, `Arg`, `Clause` — the nodes of a qualification that the inference tells apart;
  every clause it learns nothing from by its node type is `Clause.other`.
* `Catalog` — what the code looks up: the rows of `pg_amop`, negators, and the length and passing
  of a type.
* `PossibleValueSet` and its operations, `tryProcessExprForPossibleValues`,
  `processAndClauseForPossibleValues`, `processOrClauseForPossibleValues` and
  `determinePossibleValueSet`, with the expansion of short `ANY` and `ALL` arrays of
  `predicate_classify`.
* `Clause.eval` — the truth value of a qualification on a row.
-/

namespace PolemoDB.Optimizer

open PolemoDB.Lib

abbrev Oid := Nat

/-! ## Constants -/

/-- A `Datum`: the word of a pass-by-value type, or the bytes (`datumGetSize` many) that a
pass-by-reference `Datum` points to. -/
inductive Datum where
  | word (w : BitVec 64)
  | bytes (b : List (BitVec 8))
deriving DecidableEq

/-- A `Const` node, without its parse location. -/
structure Const where
  consttype : Oid
  consttypmod : Int
  constcollid : Oid
  constlen : Int
  constvalue : Datum
  constisnull : Bool
  constbyval : Bool
deriving DecidableEq

/-- `datumIsEqual`: the whole word, or the size and the bytes. -/
def datumIsEqual (value1 value2 : Datum) : Bool := decide (value1 = value2)

/-- `_equalConst`, which is what `ConstHashTableMatch` asks. -/
def Const.equal (a b : Const) : Bool :=
  a.consttype == b.consttype && a.consttypmod == b.consttypmod && a.constcollid == b.constcollid &&
    a.constlen == b.constlen && a.constisnull == b.constisnull && a.constbyval == b.constbyval &&
    (a.constisnull || datumIsEqual a.constvalue b.constvalue)

/-! ## `PossibleValueSet` -/

/-- `PossibleValueSet`; `set` is the hash table of constants, `none` for the null pointer. -/
structure PossibleValueSet where
  isAnyValuePossible : Bool
  set : Option (List Const)
deriving DecidableEq

def initPossibleValueSetData : PossibleValueSet := ⟨true, none⟩

def deletePossibleValueSetData (_pvs : PossibleValueSet) : PossibleValueSet := ⟨true, none⟩

variable (pvs : PossibleValueSet)

def getPossibleValuesAsArray : List Const := pvs.set.getD []

def containsValue (value : Const) : Bool :=
  match pvs.set with
  | none => false
  | some s => s.any (·.equal value)

/-- `AddValue`: the table is created by the first addition. -/
def addValue (valueToCopy : Const) : PossibleValueSet :=
  if containsValue pvs valueToCopy then pvs
  else { pvs with set := some (pvs.set.getD [] ++ [valueToCopy]) }

def setToNoValuesPossible (_pvs : PossibleValueSet) : PossibleValueSet := ⟨false, some []⟩

def removeValue (value : Const) : PossibleValueSet :=
  { pvs with set := pvs.set.map (·.eraseP (·.equal value)) }

/-- `AddUnmatchingValues`: union in place. -/
def addUnmatchingValues (pvs toCheck : PossibleValueSet) : PossibleValueSet :=
  (toCheck.set.getD []).foldl addValue pvs

/-- `RemoveUnmatchingValues`: intersection in place; what to remove is collected first. -/
def removeUnmatchingValues (pvs toCheck : PossibleValueSet) : PossibleValueSet :=
  let toRemove := (pvs.set.getD []).filter (fun value => !containsValue toCheck value)
  toRemove.foldl removeValue pvs

/-! ## Nodes of a qualification -/

/-- A `Var` node. -/
structure Var where
  varno : Nat
  varattno : Int
  vartype : Oid
  vartypmod : Int
  varcollid : Oid
deriving DecidableEq

/-- An operand; `other` is any expression that is no `Var`, `Const` or `RelabelType`. -/
inductive Arg where
  | var (v : Var)
  | const (c : Const)
  | relabel (arg : Arg)
  | other (id : Nat)
deriving DecidableEq

/-- The array operand of a `ScalarArrayOpExpr`: an array constant with its elements (`none` for a
null element), an `ArrayExpr`, or another expression. -/
inductive ArrayArg where
  | const (constisnull : Bool) (constcollid elemtype : Oid) (elems : List (Option Datum))
  | arrayExpr (multidims : Bool) (elements : List Arg)
  | other (id : Nat)
deriving DecidableEq

inductive BoolExprType where
  | AND_EXPR
  | OR_EXPR
  | NOT_EXPR
deriving DecidableEq

inductive NullTestType where
  | IS_NULL
  | IS_NOT_NULL
deriving DecidableEq

/-- A clause; `list` is an implicit-AND list and `other` any node of another type. -/
inductive Clause where
  | list (args : List Clause)
  | boolExpr (boolop : BoolExprType) (args : List Clause)
  | opExpr (opno : Oid) (args : List Arg)
  | nullTest (nulltesttype : NullTestType) (arg : Arg)
  | scalarArrayOpExpr (opno : Oid) (useOr : Bool) (scalar : Arg) (array : ArrayArg)
  | other (id : Nat)

/-! ## The catalog -/

/-- A row of `pg_amop`; `amopsearch` is `amoppurpose = AMOP_SEARCH`. -/
structure Amop where
  amopfamily : Oid
  amoplefttype : Oid
  amoprighttype : Oid
  amopstrategy : Nat
  amopsearch : Bool
  amopopr : Oid
  amopmethod : Oid
deriving DecidableEq

def BTREE_AM_OID : Oid := 403
def BTEqualStrategyNumber : Nat := 3
def ROWCOMPARE_NE : Nat := 6
def INT8OID : Oid := 20
def INT2OID : Oid := 21
def INT4OID : Oid := 23

/-- What the code looks up in the system caches; `getNegator` is `none` for an invalid Oid. -/
structure Catalog where
  pgAmop : List Amop
  getNegator : Oid → Option Oid
  getTyplenbyval : Oid → Int × Bool

/-- `OpBtreeInterpretation`, without the family's Oid, which no caller here reads. -/
structure OpBtreeInterpretation where
  strategy : Nat
  oplefttype : Oid
  oprighttype : Oid
deriving DecidableEq

variable (cat : Catalog)

def opInOpfamily (opno opfamily : Oid) : Bool :=
  cat.pgAmop.any fun a => a.amopopr == opno && a.amopsearch && a.amopfamily == opfamily

def btreeRows (opno : Oid) : List Amop :=
  cat.pgAmop.filter fun a => a.amopopr == opno && a.amopmethod == BTREE_AM_OID

def getOpBtreeInterpretation (opno : Oid) : List OpBtreeInterpretation :=
  match (btreeRows cat opno).map (fun a => ⟨a.amopstrategy, a.amoplefttype, a.amoprighttype⟩) with
  | [] =>
    match cat.getNegator opno with
    | none => []
    | some op_negator =>
      ((btreeRows cat op_negator).filter (·.amopstrategy == BTEqualStrategyNumber)).map
        (fun a => ⟨ROWCOMPARE_NE, a.amoplefttype, a.amoprighttype⟩)
  | result => result

/-- The loop over `clause_op_infos`: the operand types of the first equality among them. -/
def equalityTypes (opno : Oid) : Option (Oid × Oid) :=
  ((getOpBtreeInterpretation cat opno).find? (·.strategy == BTEqualStrategyNumber)).map
    (fun info => (info.oplefttype, info.oprighttype))

/-! ## One clause -/

/-- The word of a `Datum` (a pointer is not modelled). -/
def Datum.toWord : Datum → BitVec 64
  | .word w => w
  | .bytes _ => 0

/-- The switch over `const_type`: `DatumGetInt16`, `DatumGetInt32`, `DatumGetInt64`. -/
def datumGetInt (type : Oid) (d : Datum) : Option Int :=
  if type = INT2OID then some (d.toWord.setWidth 16).toInt
  else if type = INT4OID then some (d.toWord.setWidth 32).toInt
  else if type = INT8OID then some d.toWord.toInt
  else none

/-- `makeConst` with the type modifier 0 and no collation, as the cross-type path calls it. -/
def makeIntConst (new_const_type : Oid) (new_const_len : Int) (new_const_datum : BitVec 64) :
    Const :=
  ⟨new_const_type, 0, 0, new_const_len, .word new_const_datum, false, true⟩

/-- The switch over `var_type`: whether the value overflows the type, and the new constant. -/
def assignToType (var_type : Oid) (constvalue : Int) : Option (Bool × Const) :=
  if var_type = INT2OID then
    some (decide (constvalue > 32767 ∨ constvalue < -32768),
      makeIntConst INT2OID 2 ((BitVec.ofInt 16 constvalue).signExtend 64))
  else if var_type = INT4OID then
    some (decide (constvalue > 2147483647 ∨ constvalue < -2147483648),
      makeIntConst INT4OID 4 ((BitVec.ofInt 32 constvalue).signExtend 64))
  else if var_type = INT8OID then
    some (false, makeIntConst INT8OID 8 (BitVec.ofInt 64 constvalue))
  else none

/-- The operand that is not the constant, the constant, and `constOnRight`. -/
def splitOperands : List Arg → Option (Arg × Const × Bool)
  | leftop :: rightop :: _ =>
    match leftop, rightop with
    | varExpr, .const c => some (varExpr, c, true)
    | .const c, varExpr => some (varExpr, c, false)
    | _, _ => none
  | _ => none

/-- The argument below one `RelabelType`. -/
def stripRelabel : Arg → Arg
  | .relabel arg => arg
  | varExpr => varExpr

/-- The possible values after a recognised equality of operand types `oplefttype` and
`oprighttype`: the constant itself, or its value in the variable's integer type. -/
def processEquality (oplefttype oprighttype : Oid) (constOnRight : Bool) (constExpr : Const) :
    Option PossibleValueSet :=
  if oplefttype = oprighttype then
    some (addValue ⟨false, none⟩ constExpr)
  else
    let const_type := if constOnRight then oprighttype else oplefttype
    let var_type := if constOnRight then oplefttype else oprighttype
    match datumGetInt const_type constExpr.constvalue with
    | none => none
    | some constvalue =>
      match assignToType var_type constvalue with
      | none => none
      | some (isOverflow, newConst) =>
        if isOverflow then some (setToNoValuesPossible initPossibleValueSetData)
        else some (addValue ⟨false, none⟩ newConst)

/-- `TryProcessOpExprForPossibleValues`; `none` is a return of false. -/
def tryProcessOpExprForPossibleValues (opno : Oid) (args : List Arg)
    (variable_ : Var) (opfamily : Oid) : Option PossibleValueSet :=
  match splitOperands args with
  | none => none
  | some (varExpr, constExpr, constOnRight) =>
    if constExpr.constisnull then none
    else if stripRelabel varExpr ≠ .var variable_ then none
    else if !opInOpfamily cat opno opfamily then none
    else
      match equalityTypes cat opno with
      | none => none
      | some (oplefttype, oprighttype) =>
        processEquality oplefttype oprighttype constOnRight constExpr

def makeNullConst (consttype : Oid) (consttypmod : Int) (constcollid : Oid) : Const :=
  let (typLen, typByVal) := cat.getTyplenbyval consttype
  ⟨consttype, consttypmod, constcollid, typLen, .word 0, true, typByVal⟩

def tryProcessNullTestForPossibleValues (nulltesttype : NullTestType) (arg : Arg)
    (variable_ : Var) : Option PossibleValueSet :=
  if stripRelabel arg ≠ .var variable_ then none
  else
    match nulltesttype with
    | .IS_NULL =>
      some (addValue ⟨false, none⟩ (makeNullConst cat variable_.vartype (-1) variable_.varcollid))
    | .IS_NOT_NULL => none

def tryProcessExprForPossibleValues (expr : Clause) (variable_ : Var)
    (opfamily : Oid) : Option PossibleValueSet :=
  match expr with
  | .opExpr opno args => tryProcessOpExprForPossibleValues cat opno args variable_ opfamily
  | .nullTest nulltesttype arg => tryProcessNullTestForPossibleValues cat nulltesttype arg variable_
  | _ => none

/-- The `CLASS_ATOM` case of `DeterminePossibleValueSet`. -/
def possibleValuesOfAtom (opfamily : Oid) (variable_ : Var) (clause : Clause) : PossibleValueSet :=
  (tryProcessExprForPossibleValues cat clause variable_ opfamily).getD initPossibleValueSetData

/-! ## AND and OR -/

/-- One member of an AND in `ProcessAndClauseForPossibleValues`. -/
def andStep (result childPossible : PossibleValueSet) : PossibleValueSet :=
  if childPossible.isAnyValuePossible then result
  else if result.isAnyValuePossible then childPossible
  else removeUnmatchingValues result childPossible

/-- `ProcessAndClauseForPossibleValues` over the sets of the members. -/
def processAndClauseForPossibleValues (children : List PossibleValueSet) : PossibleValueSet :=
  children.foldl andStep initPossibleValueSetData

/-- The loop of `ProcessOrClauseForPossibleValues`: a member without information ends it. -/
def orLoop (result : PossibleValueSet) : List PossibleValueSet → PossibleValueSet
  | [] => result
  | childPossible :: rest =>
    if childPossible.isAnyValuePossible then deletePossibleValueSetData result
    else if result.isAnyValuePossible then orLoop childPossible rest
    else orLoop (addUnmatchingValues result childPossible) rest

/-- `ProcessOrClauseForPossibleValues` over the sets of the members. -/
def processOrClauseForPossibleValues (children : List PossibleValueSet) : PossibleValueSet :=
  orLoop initPossibleValueSetData children

/-! ## `predicate_classify` and `DeterminePossibleValueSet` -/

def MAX_SAOP_ARRAY_SIZE : Nat := 100

/-- The per-element constant of `arrayconst_startup_fn` and `arrayconst_next_fn`. -/
def arrayElementConst (constcollid elemtype : Oid) (elem : Option Datum) : Const :=
  let (elmlen, elmbyval) := cat.getTyplenbyval elemtype
  ⟨elemtype, -1, constcollid, elmlen, elem.getD (.word 0), elem.isNone, elmbyval⟩

/-- The members a `ScalarArrayOpExpr` is iterated as, if `predicate_classify` does not make it an
atom. -/
def arrayChildren (opno : Oid) (scalar : Arg) : ArrayArg → Option (List Clause)
  | .const constisnull constcollid elemtype elems =>
    if !constisnull && decide (elems.length ≤ MAX_SAOP_ARRAY_SIZE) then
      some (elems.map fun e =>
        .opExpr opno [scalar, .const (arrayElementConst cat constcollid elemtype e)])
    else none
  | .arrayExpr multidims elements =>
    if !multidims && decide (elements.length ≤ MAX_SAOP_ARRAY_SIZE) then
      some (elements.map fun e => .opExpr opno [scalar, e])
    else none
  | .other _ => none

mutual

/-- `DeterminePossibleValueSet`; a null clause is the empty list. -/
def determinePossibleValueSet (cat : Catalog) (opfamily : Oid) (variable_ : Var) : Clause →
    PossibleValueSet
  | .list args => processAndClauseForPossibleValues (determineAll cat opfamily variable_ args)
  | .boolExpr .AND_EXPR args =>
    processAndClauseForPossibleValues (determineAll cat opfamily variable_ args)
  | .boolExpr .OR_EXPR args =>
    processOrClauseForPossibleValues (determineAll cat opfamily variable_ args)
  | .scalarArrayOpExpr opno useOr scalar array =>
    match arrayChildren cat opno scalar array with
    | some children =>
      if useOr then
        processOrClauseForPossibleValues
          (children.map (possibleValuesOfAtom cat opfamily variable_))
      else
        processAndClauseForPossibleValues
          (children.map (possibleValuesOfAtom cat opfamily variable_))
    | none => possibleValuesOfAtom cat opfamily variable_
      (.scalarArrayOpExpr opno useOr scalar array)
  | clause => possibleValuesOfAtom cat opfamily variable_ clause

/-- The recursive calls of the two loops, member by member. -/
def determineAll (cat : Catalog) (opfamily : Oid) (variable_ : Var) : List Clause →
    List PossibleValueSet
  | [] => []
  | child :: rest =>
    determinePossibleValueSet cat opfamily variable_ child :: determineAll cat opfamily variable_
      rest

end

/-! ## The truth value of a qualification -/

/-- A row and what else the value of an expression depends on. -/
structure Env where
  var : Var → Option Datum
  arg : Nat → Option Datum
  array : ArrayArg → Option (List (Option Datum))
  clause : Nat → Option Bool

/-- The value of an operand; a `RelabelType` changes no bits. -/
def Arg.eval (env : Env) : Arg → Option Datum
  | .var v => env.var v
  | .const c => if c.constisnull then none else some c.constvalue
  | .relabel arg => arg.eval env
  | .other id => env.arg id

/-- The elements of an array operand, `none` for a null array. -/
def ArrayArg.eval (env : Env) : ArrayArg → Option (List (Option Datum))
  | .const constisnull _ _ elems => if constisnull then none else some elems
  | .arrayExpr false elements => some (elements.map (Arg.eval env))
  | array => env.array array

/-- The operators' results on their arguments' values. -/
abbrev OpSem := Oid → List (Option Datum) → Option Bool

mutual

/-- The truth value of a clause. -/
def Clause.eval (op : OpSem) (env : Env) : Clause → Option Bool
  | .list args => conj3 (evalAll op env args)
  | .boolExpr .AND_EXPR args => conj3 (evalAll op env args)
  | .boolExpr .OR_EXPR args => disj3 (evalAll op env args)
  | .boolExpr .NOT_EXPR args => not3 (conj3 (evalAll op env args))
  | .opExpr opno args => op opno (args.map (Arg.eval env))
  | .nullTest .IS_NULL arg => some (arg.eval env).isNone
  | .nullTest .IS_NOT_NULL arg => some (arg.eval env).isSome
  | .scalarArrayOpExpr opno useOr scalar array =>
    match array.eval env with
    | none => none
    | some elems =>
      let results := elems.map fun e => op opno [scalar.eval env, e]
      if useOr then disj3 results else conj3 results
  | .other id => env.clause id

def evalAll (op : OpSem) (env : Env) : List Clause → List (Option Bool)
  | [] => []
  | c :: cs => c.eval op env :: evalAll op env cs

end

end PolemoDB.Optimizer
