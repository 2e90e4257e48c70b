import PolemoDB.Cdb.Hash
import PolemoDB.Optimizer.ValueSet

/-!
# Direct dispatch (`cdb/cdbtargeteddispatch.c`, `cdb/cdbhash.c`)

* `cdbhashinit`, `cdbhash`, `segmentOfRow` — the distribution hash of a row, column by column, and
  its reduction to a segment.
* `getContentIdsFromPlanForSingleRelation` — the decision for one scan: by `gp_segment_id`, or by
  the distribution key with the product of the set sizes counted in a `long`.
* `mergeDirectDispatchCalculationInfo`, `directDispatchUpdateContentIdsFromPlan` — the decisions of
  the nodes of a slice, one after the other.

`none` is an error: a set too large for the array that `GetPossibleValuesAsArray` allocates, or an
unknown node. The elements of a set are always `Const` nodes, so the tests for another node do not
arise.
-/

namespace PolemoDB.Cdb

open PolemoDB.Optimizer

/-! ## The distribution hash -/

/-- The hash functions of a distribution key. `hashfuncs i stash datum` is the result of the `i`-th
function while `magic_hash_stash` is `stash`, which only legacy functions read. -/
structure CdbHashFuncs where
  is_legacy_hash : Bool
  hashfuncs : Nat → UInt32 → Datum → UInt32

def FNV1_32_INIT : UInt32 := 0x811c9dc5

def fnv1_32_buf (buf : List UInt8) (hval : UInt32) : UInt32 := buf.foldl (fun hval b =>
    (hval + ((hval <<< 1) + (hval <<< 4) + (hval <<< 7) + (hval <<< 8) + (hval <<< 24))) ^^^
      b.toUInt32) hval

/-- `cdblegacyhash_null`: the bytes of `NULL_VAL`. -/
def cdblegacyhashNull (magic_hash_stash : UInt32) : UInt32 :=
  fnv1_32_buf [0xF1, 0xF0, 0xF0, 0xF0] magic_hash_stash

variable (f : CdbHashFuncs)

def cdbhashinit (h : CdbHash) : CdbHash :=
  { h with hash := if f.is_legacy_hash then FNV1_32_INIT else 0 }

/-- The rotation of the hash key by one bit. -/
def rotateLeft1 (hashkey : UInt32) : UInt32 :=
  (hashkey <<< 1) ||| (if hashkey &&& 0x80000000 = 0 then 0 else 1)

/-- The new hash key of `cdbhash` for column `i` (`attno - 1`); `none` is null. -/
def hashColumn (i : Nat) (hashkey : UInt32) (datum : Option Datum) : UInt32 :=
  if f.is_legacy_hash then
    match datum with
    | some d => f.hashfuncs i hashkey d
    | none => cdblegacyhashNull hashkey
  else
    match datum with
    | some d => rotateLeft1 hashkey ^^^ f.hashfuncs i FNV1_32_INIT d
    | none => rotateLeft1 hashkey

def cdbhash (h : CdbHash) (i : Nat) (datum : Option Datum) : CdbHash :=
  { h with hash := hashColumn f i h.hash datum }

/-- `cdbhash` over the columns of a row, from column `i` on. -/
def cdbhashRow (f : CdbHashFuncs) : Nat → List (Option Datum) → CdbHash → CdbHash
  | _, [], h => h
  | i, d :: ds, h => cdbhashRow f (i + 1) ds (cdbhash f h i d)

def segmentOfRow (numsegments : Int32) (row : List (Option Datum)) : Int32 :=
  (cdbhashreduce (cdbhashRow f 0 row
  (cdbhashinit f (makeCdbHash numsegments f.is_legacy_hash)))).toInt32

/-- `(constvalue, constisnull)` of a constant. -/
def constDatum (c : Const) : Option Datum := if c.constisnull then none else some c.constvalue

/-! ## The decision for one scan -/

structure DirectDispatchInfo where
  isDirectDispatch : Bool
  contentIds : List Int32
  haveProcessedAnyCalculations : Bool
deriving DecidableEq

def initDirectDispatchCalculationInfo : DirectDispatchInfo := ⟨false, [], false⟩

def disableTargetedDispatch : DirectDispatchInfo := ⟨false, [], true⟩

inductive GpPolicyType where
  | POLICYTYPE_PARTITIONED
  | POLICYTYPE_ENTRY
  | POLICYTYPE_REPLICATED
deriving DecidableEq

/-- The distribution policy of a relation: its key columns, each with the operator family of its
class, and the hash functions the classes give. -/
structure GpPolicy where
  ptype : GpPolicyType
  numsegments : Int32
  keys : List (Var × Oid)
  funcs : CdbHashFuncs

/-- What the decision reads of a scan: the range table entry, the relation's policy, and
`DeterminePossibleValueSet` of the scan's qualification. -/
structure Scan where
  rangeTableIndex : Nat
  isRelation : Bool
  forceDistRandom : Bool
  policy : Option GpPolicy
  possible : Var → Oid → PossibleValueSet

def scanWithQual (cat : Catalog) (rangeTableIndex : Nat) (isRelation forceDistRandom : Bool)
    (policy : Option GpPolicy) (qual : Clause) : Scan :=
  ⟨rangeTableIndex, isRelation, forceDistRandom, policy,
    fun v opfamily => determinePossibleValueSet cat opfamily v qual⟩

def MaxAllocSize : Nat := 0x3fffffff
def GpSegmentIdAttributeNumber : Int := -7
def GP_SEGMENTID_OPFAMILY : Oid := 1977

/-- `GetPossibleValuesAsArray` with the allocation of its result. -/
def possibleValuesArray (pvs : PossibleValueSet) : Option (List Const) :=
  if 8 * (getPossibleValuesAsArray pvs).length ≤ MaxAllocSize then
    some (getPossibleValuesAsArray pvs)
  else none

def listAppendUniqueInt (list : List Int32) (datum : Int32) : List Int32 :=
  if datum ∈ list then list else list ++ [datum]

/-- The first block: the content ids that conditions on `gp_segment_id` leave, if they decide. -/
def contentIdsBySegmentId (scan : Scan) (policy : GpPolicy) : Option (Option (List Int32)) :=
  if policy.ptype = .POLICYTYPE_PARTITIONED then
    let seg_id_var : Var := ⟨scan.rangeTableIndex, GpSegmentIdAttributeNumber, INT4OID, -1, 0⟩
    let pvs_segids := scan.possible seg_id_var GP_SEGMENTID_OPFAMILY
    if pvs_segids.isAnyValuePossible then some none
    else
      match possibleValuesArray pvs_segids with
      | none => none
      | some seg_ids =>
        if 0 < seg_ids.length ∧ (seg_ids.length : Int) < policy.numsegments.toInt then
          some (some (seg_ids.foldl
            (fun ids c => listAppendUniqueInt ids (c.constvalue.toWord.setWidth 32).toInt.toInt32)
            []))
        else some none
  else some none

/-- The loop over the key columns: `totalCombinations`, -1 if some column is not limited, and the
values of each column. -/
def keyLoop : List PossibleValueSet → Int → List (List Const) → Option (Int × List (List Const))
  | [], totalCombinations, parts => some (totalCombinations, parts)
  | pvs :: rest, totalCombinations, parts =>
    if pvs.isAnyValuePossible then some (-1, parts)
    else
      match possibleValuesArray pvs with
      | none => none
      | some values =>
        keyLoop rest (Int.bmod (totalCombinations * values.length) (2 ^ 64)) (parts ++ [values])

/-- The inner loop for one combination: the value of each column by repeated division. -/
def hashCombination (f : CdbHashFuncs) : Nat → List (List Const) → Nat → CdbHash → CdbHash
  | _, [], _, h => h
  | i, values :: rest, curIndex, h =>
    hashCombination f (i + 1) rest (curIndex / values.length)
      (match values[curIndex % values.length]? with
        | some c => cdbhash f h i (constDatum c)
        | none => h)

/-- The body of the loop over `index`. -/
def combinationSegment (policy : GpPolicy) (parts : List (List Const)) (index : Nat) : Int32 :=
  (cdbhashreduce (hashCombination policy.funcs 0 parts index
    (cdbhashinit policy.funcs
    (makeCdbHash policy.numsegments policy.funcs.is_legacy_hash)))).toInt32

/-- The second block: the decision by the distribution key, after the loop over its columns. -/
def contentIdsByKey (policy : GpPolicy) (totalCombinations : Int) (parts : List (List Const)) :
    DirectDispatchInfo :=
  if totalCombinations = 0 then ⟨true, [], true⟩
  else if 0 < totalCombinations ∧ totalCombinations < (policy.numsegments * 3).toInt then
    ⟨true, (List.range totalCombinations.toNat).foldl
      (fun ids index => listAppendUniqueInt ids (combinationSegment policy parts index)) [], true⟩
  else ⟨false, [], true⟩

def getContentIdsFromPlanForSingleRelation (scan : Scan) : Option DirectDispatchInfo :=
  match if scan.isRelation then scan.policy else none with
  | none => some disableTargetedDispatch
  | some policy =>
    if scan.forceDistRandom then some disableTargetedDispatch
    else
      match contentIdsBySegmentId scan policy with
      | none => none
      | some (some contentIds) => some ⟨true, contentIds, true⟩
      | some none =>
        if policy.ptype = .POLICYTYPE_PARTITIONED ∧ 0 < policy.keys.length then
          match keyLoop (policy.keys.map fun k => scan.possible k.1 k.2) 1 [] with
          | none => none
          | some (totalCombinations, parts) => some (contentIdsByKey policy totalCombinations parts)
        else some disableTargetedDispatch

/-! ## The decision for a slice -/

def listUnionInt (list1 list2 : List Int32) : List Int32 := list2.foldl listAppendUniqueInt list1

def mergeDirectDispatchCalculationInfo (to_ from_ : DirectDispatchInfo) : DirectDispatchInfo :=
  let to_ :=
    if !from_.isDirectDispatch then { to_ with isDirectDispatch := false }
    else if !to_.haveProcessedAnyCalculations then from_
    else if !to_.isDirectDispatch then to_
    else if from_.contentIds = [] then to_
    else if to_.contentIds = [] then { to_ with contentIds := from_.contentIds }
    else { to_ with contentIds := listUnionInt to_.contentIds from_.contentIds }
  { to_ with haveProcessedAnyCalculations := true }

/-- The plan nodes that the switch of `DirectDispatchUpdateContentIdsFromPlan` knows. -/
inductive PlanTag where
  | T_Result | T_Append | T_MergeAppend | T_LockRows | T_ModifyTable | T_BitmapAnd | T_BitmapOr
  | T_BitmapHeapScan | T_SampleScan | T_SeqScan | T_IndexScan | T_IndexOnlyScan | T_BitmapIndexScan
  | T_SubqueryScan | T_NamedTuplestoreScan | T_TidScan | T_FunctionScan | T_TableFuncScan
  | T_WorkTableScan | T_ValuesScan | T_NestLoop | T_MergeJoin | T_HashJoin | T_Material | T_Sort
  | T_Agg | T_TupleSplit | T_Unique | T_Gather | T_Hash | T_SetOp | T_Limit | T_PartitionSelector
  | T_Motion | T_ShareInputScan | T_WindowAgg | T_TableFunctionScan | T_RecursiveUnion
  | T_ForeignScan | T_SplitUpdate | T_CustomScan | unknown
deriving DecidableEq

/-- What the switch does for a node. -/
inductive PlanAction where
  | noChange
  | disable
  | scan
  | error
deriving DecidableEq

/-- The switch of `DirectDispatchUpdateContentIdsFromPlan`. -/
def planAction : PlanTag → PlanAction
  | .T_SeqScan | .T_IndexScan | .T_IndexOnlyScan | .T_BitmapIndexScan => .scan
  | .T_SampleScan | .T_TidScan | .T_FunctionScan | .T_TableFuncScan | .T_WorkTableScan | .T_Motion
  | .T_ShareInputScan | .T_ForeignScan => .disable
  | .unknown => .error
  | _ => .noChange

/-- `DirectDispatchUpdateContentIdsFromPlan`; a scan node comes with the qualification that the
switch takes for its tag. -/
def directDispatchUpdateContentIdsFromPlan (directDispatch : DirectDispatchInfo) (tag : PlanTag)
    (scan : Scan) : Option DirectDispatchInfo :=
  let dispatchInfo : Option DirectDispatchInfo :=
    match planAction tag with
    | .noChange => some initDirectDispatchCalculationInfo
    | .disable => some disableTargetedDispatch
    | .scan => getContentIdsFromPlanForSingleRelation scan
    | .error => none
  dispatchInfo.map fun dispatchInfo =>
    if dispatchInfo.haveProcessedAnyCalculations then
      mergeDirectDispatchCalculationInfo directDispatch dispatchInfo
    else directDispatch

/-! ## Expansion -/

/-- The hash key of a row does not depend on the number of segments. -/
theorem cdbhashRow_hash (alg : CdbHashReduce) (row : List (Option Datum)) (i : Nat) (k : UInt32) :
    ∃ k', ∀ n, cdbhashRow f i row ⟨k, n, alg⟩ = ⟨k', n, alg⟩ := by
  induction row generalizing i k with
  | nil => exact ⟨k, fun _ => rfl⟩
  | cons d row ih => exact ih (i + 1) (hashColumn f i k d)

/-- **Expanding a table** from `n` to `m` segments moves a row onto a new segment, or not at all. -/
theorem segmentOfRow_expansion (f : CdbHashFuncs) (hf : f.is_legacy_hash = false)
    (row : List (Option Datum)) (n m : Int32) (hn : 1 ≤ n.toInt) (hnm : n.toInt ≤ m.toInt) :
      segmentOfRow f m row = segmentOfRow f n row ∨ n.toInt ≤ (segmentOfRow f m row).toInt ∧
      (segmentOfRow f m row).toInt < m.toInt := by
  obtain ⟨key, hkey⟩ := cdbhashRow_hash f .jumpHash row 0 0
  have hseg (n : Int32) : segmentOfRow f n row = jumpConsistentHash key.toUInt64 n := by
    simp only [segmentOfRow, cdbhashinit, makeCdbHash, hf, Bool.false_eq_true, if_false, hkey]
    rfl
  obtain ⟨k, hk⟩ := Int.exists_add_of_le hnm
  rw [hseg, hseg]
  rcases jumpLoop_expansion hk (by omega) key.toUInt64 with h | h
  · left
    rw [jumpConsistentHash, h]
    rfl
  · refine .inr ⟨?_, (jumpConsistentHash_range _ (by omega)).2⟩
    rwa [jumpConsistentHash_toInt _ (by omega)]

/-- A hash function that tells the word 1 from everything else. -/
def hashOne : CdbHashFuncs := ⟨false, fun _ _ d => if d = .word 1 then 1 else 0⟩

/-- A row that moves from segment 0 of two to segment 3 of five. -/
theorem segmentOfRow_expansion_two :
    segmentOfRow hashOne 2 [some (.word 1), none] = 0 ∧
    segmentOfRow hashOne 5 [some (.word 1), none] = 3 ∧
    2 ≤ (segmentOfRow hashOne 5 [some (.word 1), none]).toInt := by
  have htwo : segmentOfRow hashOne 2 [some (.word 1), none] = 0 := by decide +kernel
  have hfive : segmentOfRow hashOne 5 [some (.word 1), none] = 3 := by decide +kernel
  have h := segmentOfRow_expansion hashOne rfl [some (.word 1), none] 2 5 (by decide) (by decide)
  refine ⟨htwo, hfive, (h.resolve_left ?_).1⟩
  rw [htwo, hfive]
  decide

end PolemoDB.Cdb
