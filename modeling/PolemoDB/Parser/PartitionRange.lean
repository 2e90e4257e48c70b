import Mathlib.Data.Int.Order.Basic

/-!
# START, END and EVERY of a range partition (`parse_partition_gp.c`)

The classic syntax gives the ranges of a partitioned table as a START value, an END value and an
optional EVERY step. `transformGpPartDefElemWithRangeSpec` brings the clause to the form START
INCLUSIVE, END EXCLUSIVE: a bound with the other edge is replaced by the value plus one, computed on
the representation of the type by `convert_exclusive_start_inclusive_end`, which marks the bound as
NULL if the value is the last of the type. `generateRangePartitions` then walks from START to END in
steps of EVERY and makes one partition of each step.

The values of the types are modelled by their representations: integers, and for `timetz` a local
time in microseconds with the displacement of its zone in seconds west of Greenwich. The step is an
arbitrary function that may raise an error or give NULL.
-/

namespace PolemoDB.Parser

/-! ## The types of the partition key -/

def PG_INT16_MAX : ℤ := 32767
def PG_INT32_MAX : ℤ := 2147483647
def PG_INT64_MAX : ℤ := 9223372036854775807
def USECS_PER_SEC : ℤ := 1000000
def USECS_PER_HOUR : ℤ := 3600000000
def USECS_PER_DAY : ℤ := 86400000000
def HOURS_PER_DAY : ℤ := 24
def TZDISP_LIMIT : ℤ := 57600
def DATEVAL_NOBEGIN : ℤ := -PG_INT32_MAX - 1
def DATEVAL_NOEND : ℤ := PG_INT32_MAX
def DT_NOBEGIN : ℤ := -PG_INT64_MAX - 1
def DT_NOEND : ℤ := PG_INT64_MAX
def POSTGRES_EPOCH_JDATE : ℤ := 2451545
def DATETIME_MIN_JULIAN : ℤ := 0
def DATE_END_JULIAN : ℤ := 2147483494
def MIN_TIMESTAMP : ℤ := -211813488000000000
def END_TIMESTAMP : ℤ := 9223371331200000000

/-- The column types for which an edge can be converted and whose values are totally ordered. -/
inductive PartColType where
  | int2
  | int4
  | int8
  | date
  | time
  | timetz
  | timestamp
  | timestamptz
  deriving DecidableEq, Repr

/-- `TimeTzADT`: a time of day, and its zone in seconds west of Greenwich. -/
structure TimeTzADT where
  time : ℤ
  zone : ℤ
  deriving DecidableEq, Repr

abbrev PartColType.Value : PartColType → Type
  | .int2 => ℤ
  | .int4 => ℤ
  | .int8 => ℤ
  | .date => ℤ
  | .time => ℤ
  | .timetz => TimeTzADT
  | .timestamp => ℤ
  | .timestamptz => ℤ

/-- `IS_VALID_DATE`, or one of the two infinities. -/
def validDate (d : ℤ) : Prop :=
  (DATETIME_MIN_JULIAN - POSTGRES_EPOCH_JDATE ≤ d ∧ d < DATE_END_JULIAN - POSTGRES_EPOCH_JDATE) ∨
    d = DATEVAL_NOBEGIN ∨ d = DATEVAL_NOEND

/-- `IS_VALID_TIMESTAMP`, or one of the two infinities. -/
def validTimestamp (t : ℤ) : Prop := (MIN_TIMESTAMP ≤ t ∧ t < END_TIMESTAMP) ∨ t = DT_NOBEGIN ∨
    t = DT_NOEND

/-- A time of day, 24:00:00 included. -/
def validTime (t : ℤ) : Prop := 0 ≤ t ∧ t ≤ USECS_PER_DAY

/-- The values of a type, as its input and receive functions let them in. -/
def PartColType.Valid : (t : PartColType) → t.Value → Prop
  | .int2, v => -PG_INT16_MAX - 1 ≤ v ∧ v ≤ PG_INT16_MAX
  | .int4, v => -PG_INT32_MAX - 1 ≤ v ∧ v ≤ PG_INT32_MAX
  | .int8, v => -PG_INT64_MAX - 1 ≤ v ∧ v ≤ PG_INT64_MAX
  | .date, v => validDate v
  | .time, v => validTime v
  | .timetz, v => validTime v.time ∧ -TZDISP_LIMIT < v.zone ∧ v.zone < TZDISP_LIMIT
  | .timestamp, v => validTimestamp v
  | .timestamptz, v => validTimestamp v

/-- The comparison of two machine integers (`btint4cmp`, `btint8cmp`, `date_cmp`, `time_cmp`,
`timestamp_cmp`). -/
def intCmp (a b : ℤ) : ℤ := if a > b then 1 else if a = b then 0 else -1

def btint2cmp (a b : ℤ) : ℤ := a - b

/-- The true time: the local time brought to Greenwich. -/
def TimeTzADT.gmt (v : TimeTzADT) : ℤ := v.time + v.zone * USECS_PER_SEC

/-- `timetz_cmp_internal`: by the true time, and by the zone if it is the same. -/
def timetzCmpInternal (a b : TimeTzADT) : ℤ :=
  if a.gmt > b.gmt then 1
  else if a.gmt < b.gmt then -1
  else if a.zone > b.zone then 1
  else if a.zone < b.zone then -1
  else 0

/-- `partsupfunc`: the comparison function of the btree operator class of the type. -/
def PartColType.cmp : (t : PartColType) → t.Value → t.Value → ℤ
  | .int2 => btint2cmp
  | .int4 => intCmp
  | .int8 => intCmp
  | .date => intCmp
  | .time => intCmp
  | .timetz => timetzCmpInternal
  | .timestamp => intCmp
  | .timestamptz => intCmp

/-! ## The transformed clause -/

/-- The errors of the two functions; `every` is any error that the step expression raises. -/
inductive PartError where
  | nullBound
  | precision (exclusiveStart : Bool)
  | startOutOfRange
  | everyNull
  | everyTooSmall
  | endNotReached
  | every (code : ℕ)
  deriving DecidableEq, Repr

section

variable (t : PartColType)

/-- A constant of the key's type. -/
structure Const where
  constvalue : t.Value
  constisnull : Bool

/-- `PartitionEdgeBounding`. -/
inductive PartEdge where
  | unspecified
  | inclusive
  | exclusive
  deriving DecidableEq, Repr

/-- `GpPartitionRangeItem`: a bound and its edge. -/
structure PartitionRangeItem where
  val : Const t
  edge : PartEdge

/-- The step expression `(previous bound) + EVERY`: an error, NULL or a value. -/
abbrev PlusExpr := t.Value → Except PartError (Option t.Value)

/-- `GpPartitionRangeSpec` with START and END given. -/
structure GpPartitionRangeSpec where
  partStart : PartitionRangeItem t
  partEnd : PartitionRangeItem t
  partEvery : Option (PlusExpr t)

end

/-- The integer types: plus one, unless the value is the last one. -/
def plusOneInt (max v : ℤ) : Option ℤ := if v < max then some (v + 1) else none

/-- `date`, `timestamp` and `timestamptz`: plus one, unless the value is infinity. -/
def plusOneUnless (noend v : ℤ) : Option ℤ := if v ≠ noend then some (v + 1) else none

/-- `tm_hour` as `time2tm` and `timetz2tm` compute it. -/
def tmHour (time : ℤ) : ℤ := Int.tdiv time USECS_PER_HOUR

/-- `time`: plus one, unless the hour is 24. -/
def plusOneTime (v : ℤ) : Option ℤ := if tmHour v ≠ HOURS_PER_DAY then some (v + 1) else none

/-- `timetz`: the local time plus one, unless its hour is 24. -/
def plusOneTimetz (v : TimeTzADT) : Option TimeTzADT :=
  if tmHour v.time ≠ HOURS_PER_DAY then some { v with time := v.time + 1 } else none

/-- The switch over the type; `none` where the source marks the constant as NULL. -/
def PartColType.plusOne : (t : PartColType) → t.Value → Option t.Value
  | .int2 => plusOneInt PG_INT16_MAX
  | .int4 => plusOneInt PG_INT32_MAX
  | .int8 => plusOneInt PG_INT64_MAX
  | .date => plusOneUnless DATEVAL_NOEND
  | .time => plusOneTime
  | .timetz => plusOneTimetz
  | .timestamp => plusOneUnless DT_NOEND
  | .timestamptz => plusOneUnless DT_NOEND

def PartColType.hasPrecision : PartColType → Bool
  | .time | .timetz | .timestamp | .timestamptz => true
  | .int2 | .int4 | .int8 | .date => false

def convertExclusiveStartInclusiveEnd {t : PartColType} (constval : Const t) (partColTypmod : ℤ)
    (isExclusiveStart : Bool) : Except PartError (Const t) :=
  if partColTypmod ≠ -1 ∧ t.hasPrecision = true then .error (.precision isExclusiveStart)
  else match t.plusOne constval.constvalue with
    | some v => .ok { constval with constvalue := v }
    | none => .ok { constval with constisnull := true }

/-- The START of the clause: made inclusive. -/
def transformStart {t : PartColType} (partColTypmod : ℤ) (start : PartitionRangeItem t) :
    Except PartError (Const t) :=
  if start.val.constisnull then .error .nullBound
  else if start.edge = .exclusive then
    match convertExclusiveStartInclusiveEnd start.val partColTypmod true with
    | .error e => .error e
    | .ok startConst => if startConst.constisnull then .error .startOutOfRange else .ok startConst
  else .ok start.val

/-- The END of the clause: made exclusive. NULL stands for MAXVALUE from here on. -/
def transformEnd {t : PartColType} (partColTypmod : ℤ) (item : PartitionRangeItem t) :
    Except PartError (Const t) :=
  if item.val.constisnull then .error .nullBound
  else if item.edge = .inclusive then convertExclusiveStartInclusiveEnd item.val partColTypmod false
  else .ok item.val

def transformGpPartDefElemWithRangeSpec {t : PartColType} (partColTypmod : ℤ)
    (boundspec : GpPartitionRangeSpec t) : Except PartError (GpPartitionRangeSpec t) :=
  match transformStart partColTypmod boundspec.partStart with
  | .error e => .error e
  | .ok startConst =>
    match transformEnd partColTypmod boundspec.partEnd with
    | .error e => .error e
    | .ok endConst =>
      .ok { boundspec with
        partStart := { val := startConst, edge := .inclusive }
        partEnd := { val := endConst, edge := .exclusive } }

/-! ## The iteration over the partition bounds -/

structure PartEveryIterator (t : PartColType) where
  endVal : t.Value
  isEndValMaxValue : Bool
  plusexprstate : Option (PlusExpr t)
  currEnd : t.Value
  currStart : t.Value
  called : Bool
  endReached : Bool

/-- `initPartEveryIterator`; `currStart` is not read before the first bound is computed. -/
def initPartEveryIterator {t : PartColType} (start endBound : Const t)
    (every : Option (PlusExpr t)) : PartEveryIterator t where
  endVal := endBound.constvalue
  isEndValMaxValue := endBound.constisnull
  plusexprstate := every
  currEnd := start.constvalue
  currStart := start.constvalue
  called := false
  endReached := false

/-- The part of `nextPartBound` for EVERY, once the step gave the value `next`. -/
def nextEveryBound {t : PartColType} (iter : PartEveryIterator t) (next : t.Value) :
    Except PartError (PartEveryIterator t) :=
  if t.cmp next iter.endVal ≥ 0 then
    .ok { iter with
      called := true, currStart := iter.currEnd, endReached := true, currEnd := iter.endVal }
  else if t.cmp iter.currEnd next ≥ 0 then
    .error (if iter.called then .endNotReached else .everyTooSmall)
  else .ok { iter with called := true, currStart := iter.currEnd, currEnd := next }

/-- `nextPartBound`: the iterator at the next partition, `none` if there is no other one. -/
def nextPartBound {t : PartColType} (iter : PartEveryIterator t) :
    Except PartError (Option (PartEveryIterator t)) :=
  match iter.plusexprstate with
  | some plusexpr =>
    if iter.endReached then .ok none
    else match plusexpr iter.currEnd with
      | .error e => .error e
      | .ok none => .error .everyNull
      | .ok (some next) => (nextEveryBound iter next).map some
  | none =>
    if iter.called then .ok none
    else .ok (some { iter with
      called := true, currStart := iter.currEnd, currEnd := iter.endVal, endReached := true })

/-- `PartitionBoundSpec`: the bounds of one partition, `none` for MAXVALUE. -/
structure PartitionBoundSpec (t : PartColType) where
  lowerdatum : t.Value
  upperdatum : Option t.Value

def PartEveryIterator.boundspec {t : PartColType} (iter : PartEveryIterator t) :
    PartitionBoundSpec t where
  lowerdatum := iter.currStart
  upperdatum := if iter.endReached && iter.isEndValMaxValue then none else some iter.currEnd

/-- The loop of `generateRangePartitions`; `none` if it takes more than `fuel` rounds. -/
def generateLoop {t : PartColType} :
    ℕ → PartEveryIterator t → Option (Except PartError (List (PartitionBoundSpec t)))
  | 0, _ => none
  | fuel + 1, iter =>
    match nextPartBound iter with
    | .error e => some (.error e)
    | .ok none => some (.ok [])
    | .ok (some iter') =>
      match generateLoop fuel iter' with
      | none => none
      | some (.error e) => some (.error e)
      | some (.ok result) => some (.ok (iter'.boundspec :: result))

/-- `generateRangePartitions`; a partition whose table name is given ignores EVERY. -/
def generateRangePartitions {t : PartColType} (fuel : ℕ) (tablename : Option String)
    (boundspec : GpPartitionRangeSpec t) :
    Option (Except PartError (List (PartitionBoundSpec t))) :=
  let every := if tablename.isNone then boundspec.partEvery else none
  generateLoop fuel (initPartEveryIterator boundspec.partStart.val boundspec.partEnd.val every)

/-- The partitions of a clause: transformed, then generated. -/
def rangePartitions {t : PartColType} (fuel : ℕ) (partColTypmod : ℤ) (tablename : Option String)
    (boundspec : GpPartitionRangeSpec t) :
    Option (Except PartError (List (PartitionBoundSpec t))) :=
  match transformGpPartDefElemWithRangeSpec partColTypmod boundspec with
  | .error e => some (.error e)
  | .ok boundspec' => generateRangePartitions fuel tablename boundspec'

/-! ## What a partition holds -/

/-- A partition holds the values from its lower bound to before its upper one. -/
def PartitionBoundSpec.contains {t : PartColType} (r : PartitionBoundSpec t) (x : t.Value) : Bool :=
  decide (t.cmp r.lowerdatum x ≤ 0) && r.upperdatum.all fun u => decide (t.cmp x u < 0)

/-- The lower bound is before the upper one. -/
def PartitionBoundSpec.nonempty {t : PartColType} (r : PartitionBoundSpec t) : Bool :=
  r.upperdatum.all fun u => decide (t.cmp r.lowerdatum u < 0)

/-- What the clause says: between START and END, with the edges that it includes. -/
def GpPartitionRangeSpec.covers {t : PartColType} (spec : GpPartitionRangeSpec t) (x : t.Value) :
    Bool :=
  let s := spec.partStart.val.constvalue
  let e := spec.partEnd.val.constvalue
  (decide (t.cmp s x < 0) && decide (t.cmp x e < 0)) ||
    (decide (t.cmp x s = 0) && decide (spec.partStart.edge ≠ .exclusive)) ||
    (decide (t.cmp x e = 0) && decide (spec.partEnd.edge = .inclusive))

end PolemoDB.Parser
