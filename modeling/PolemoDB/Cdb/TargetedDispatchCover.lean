import Mathlib.Algebra.BigOperators.Ring.List
import Mathlib.Data.Nat.Bitwise
import PolemoDB.Lib.MixedRadix
import PolemoDB.Cdb.TargetedDispatch

/-!
# The segments of a direct dispatch cover the rows

The product of the set sizes is counted in a `long` and wraps. As long as the count is the product,
the loop over `index` enumerates every choice of one value per key column; a product that wraps into
the range the code accepts leaves segments out.

Principal results: `contentIdsByKey_covers` (the count is the product), `directDispatch_covers_iff`
(for which set sizes and numbers of segments every decision covers its rows), `foldl_merge_covers`
(decisions merged in any order) and `slice_covers` (the nodes of a slice, one after the other).
-/

namespace PolemoDB.Cdb

open PolemoDB.Lib PolemoDB.Optimizer List Nat

/-! ## Lists of content ids -/

theorem mem_listAppendUniqueInt (l : List Int32) (d x : Int32) :
    x ∈ listAppendUniqueInt l d ↔ x ∈ l ∨ x = d := by
  unfold listAppendUniqueInt
  split
  next h =>
    constructor
    · exact .inl
    · rintro (hx | rfl)
      · exact hx
      · exact h
  · simp

theorem mem_foldl_listAppendUniqueInt {α : Type} (g : α → Int32) (as : List α) (x : Int32) :
    ∀ l : List Int32, x ∈ as.foldl (fun ids a => listAppendUniqueInt ids (g a)) l ↔
      x ∈ l ∨ ∃ a ∈ as, g a = x := by
  induction as with
  | nil => simp
  | cons a as ih =>
    intro l
    rw [foldl_cons, ih, mem_listAppendUniqueInt, exists_mem_cons_iff, or_assoc, eq_comm (a := x)]

/-! ## Combinations -/

/-- The row that takes the `d`-th value of each column, `d` being the column's digit. -/
def rowOfDigits : List (List Const) → List ℕ → List (Option Datum)
  | values :: rest, d :: ds => (values[d]?).bind constDatum :: rowOfDigits rest ds
  | _, _ => []

theorem hashCombination_eq (f : CdbHashFuncs) (parts : List (List Const)) {i index : ℕ}
    {h : CdbHash} (hne : ∀ values ∈ parts, values ≠ []) :
    hashCombination f i parts index h =
        cdbhashRow f i (rowOfDigits parts (radixDigits (parts.map length) index)) h := by
  induction parts generalizing i index h with
  | nil => rfl
  | cons values rest ih =>
    have hpos : 0 < values.length := length_pos_iff.2 (hne values mem_cons_self)
    have hlt := mod_lt index hpos
    rw [hashCombination, map_cons, radixDigits, rowOfDigits, cdbhashRow,
      ih (fun v hv => hne v (mem_cons_of_mem _ hv)), getElem?_eq_getElem hlt]
    rfl

/-- A value of each column that hashes like one of the column's possible constants. -/
def RowAllowed (f : CdbHashFuncs) : ℕ → List (List Const) → List (Option Datum) → Prop
  | _, [], [] => True
  | i, values :: rest, d :: ds =>
    (∃ c ∈ values, ∀ hashkey, hashColumn f i hashkey d = hashColumn f i hashkey (constDatum c)) ∧
      RowAllowed f (i + 1) rest ds
  | _, _, _ => False

variable {f : CdbHashFuncs} {policy : GpPolicy} {parts : List (List Const)} {total : ℤ}
  {scan : Scan} {sizes : List ℕ} {numsegments n : Int32} {r d : DirectDispatchInfo}

theorem RowAllowed.exists_digits (parts : List (List Const)) {i : ℕ} {row : List (Option Datum)}
    (h : RowAllowed f i parts row) :
    (∀ values ∈ parts, values ≠ []) ∧ ∃ ds, DigitsBelow (parts.map length) ds ∧
        ∀ h, cdbhashRow f i row h = cdbhashRow f i (rowOfDigits parts ds) h := by
  induction parts generalizing i row with
  | nil =>
    cases row with
    | nil => exact ⟨nofun, [], trivial, fun _ => rfl⟩
    | cons d ds => exact h.elim
  | cons values rest ih =>
    cases row with
    | nil => exact h.elim
    | cons d row =>
      obtain ⟨⟨c, hc, hhash⟩, hrow⟩ := h
      obtain ⟨hne, ds, hds, heq⟩ := ih hrow
      obtain ⟨k, hk, rfl⟩ := getElem_of_mem hc
      refine ⟨forall_mem_cons.2 ⟨ne_nil_of_mem hc, hne⟩, k :: ds, ⟨hk, hds⟩, fun h => ?_⟩
      rw [rowOfDigits, getElem?_eq_getElem hk, cdbhashRow, cdbhashRow, heq, cdbhash, hhash]
      rfl

/-- **Every allowed row's segment belongs to a combination** below the product of the set sizes. -/
theorem exists_combinationSegment {row : List (Option Datum)}
    (hrow : RowAllowed policy.funcs 0 parts row) : ∃ index < (parts.map length).prod,
      combinationSegment policy parts index = segmentOfRow policy.funcs policy.numsegments row := by
  obtain ⟨hne, ds, hds, heq⟩ := hrow.exists_digits
  obtain ⟨hlt, hdigits⟩ := radixDigits_ofRadixDigits _ hds
  refine ⟨_, hlt, ?_⟩
  rw [combinationSegment, segmentOfRow, hashCombination_eq _ _ hne, hdigits, heq]

/-! ## The decision by the distribution key -/

def columnSets (scan : Scan) (policy : GpPolicy) : List PossibleValueSet :=
  policy.keys.map fun k => scan.possible k.1 k.2

/-- The content ids cover a relation's rows: every row allowed by the columns' sets is on one of the
segments, and no segment is needed only if some set is empty. -/
def CoversRows (policy : GpPolicy) (parts : List (List Const)) (contentIds : List Int32) : Prop :=
  (∀ row, RowAllowed policy.funcs 0 parts row →
    segmentOfRow policy.funcs policy.numsegments row ∈ contentIds) ∧
  (contentIds = [] → [] ∈ parts)

theorem keyLoop_eq (sets : List PossibleValueSet) (t : ℤ) (parts : List (List Const))
    (h : ∀ s ∈ sets, s.isAnyValuePossible = false ∧ 8 * (getPossibleValuesAsArray s).length ≤
      MaxAllocSize) :
    keyLoop sets (Int.bmod t (2 ^ 64)) parts =
      some (Int.bmod (t * ((sets.map fun s => (getPossibleValuesAsArray s).length).prod : ℕ))
        (2 ^ 64), parts ++ sets.map getPossibleValuesAsArray) := by
  induction sets generalizing t parts with
  | nil => simp [keyLoop]
  | cons s sets ih =>
    obtain ⟨hany, hlen⟩ := h s mem_cons_self
    have hrest := fun s' hs' => h s' (mem_cons_of_mem s hs')
    rw [keyLoop, hany, if_neg Bool.false_ne_true, possibleValuesArray, if_pos hlen]
    dsimp only
    rw [Int.bmod_mul_bmod, ih _ _ hrest, map_cons, prod_cons, map_cons, append_assoc, cast_mul,
      mul_assoc]
    rfl

theorem contentIdsByKey_accepted (policy : GpPolicy) (parts : List (List Const)) (hne : total ≠ 0)
    (hrange : 0 < total ∧ total < (policy.numsegments * 3).toInt) :
    (contentIdsByKey policy total parts).isDirectDispatch = true ∧
      (∀ x, x ∈ (contentIdsByKey policy total parts).contentIds ↔
        ∃ index < total.toNat, combinationSegment policy parts index = x) ∧
      (contentIdsByKey policy total parts).contentIds ≠ [] := by
  rw [contentIdsByKey, if_neg hne, if_pos hrange]
  have hmem := fun x => mem_foldl_listAppendUniqueInt (combinationSegment policy parts)
    (range total.toNat) x []
  simp only [not_mem_nil, false_or, mem_range] at hmem
  exact ⟨rfl, hmem, ne_nil_of_mem ((hmem _).2 ⟨0, by omega, rfl⟩)⟩

/-- **The count is the product**: then the decision covers the rows. -/
theorem contentIdsByKey_covers (policy : GpPolicy) (parts : List (List Const))
    (htotal : total = ((parts.map length).prod : ℕ))
    (hdirect : (contentIdsByKey policy total parts).isDirectDispatch = true) :
    CoversRows policy parts (contentIdsByKey policy total parts).contentIds := by
  by_cases hzero : total = 0
  · -- an empty set: there is no row
    have hmem : [] ∈ parts := by
      have h0 : (parts.map length).prod = 0 := by omega
      obtain ⟨values, hv, hlen⟩ := mem_map.1 (prod_eq_zero_iff.1 h0)
      rwa [length_eq_zero_iff.1 hlen] at hv
    exact ⟨fun row hrow => absurd rfl (hrow.exists_digits.1 [] hmem), fun _ => hmem⟩
  by_cases hrange : 0 < total ∧ total < (policy.numsegments * 3).toInt
  · obtain ⟨-, hmem, hnil⟩ := contentIdsByKey_accepted policy parts hzero hrange
    refine ⟨fun row hrow => ?_, fun h => absurd h hnil⟩
    obtain ⟨index, hlt, hseg⟩ := exists_combinationSegment hrow
    exact (hmem _).2 ⟨index, by omega, hseg⟩
  · rw [contentIdsByKey, if_neg hzero, if_neg hrange] at hdirect
    exact absurd hdirect Bool.false_ne_true

/-- **The decision for a scan by its key** is that of the wrapped product of the set sizes. -/
theorem getContentIds_eq (hrel : scan.isRelation = true)
    (hpolicy : scan.policy = some policy) (hpart : policy.ptype = .POLICYTYPE_PARTITIONED)
    (hforce : scan.forceDistRandom = false) (hkeys : policy.keys ≠ [])
    (hfin : ∀ s ∈ columnSets scan policy,
      s.isAnyValuePossible = false ∧ 8 * (getPossibleValuesAsArray s).length ≤ MaxAllocSize)
    (hseg : contentIdsBySegmentId scan policy = some none) :
    getContentIdsFromPlanForSingleRelation scan = some (contentIdsByKey policy
      (Int.bmod ((((columnSets scan policy).map getPossibleValuesAsArray).map length).prod : ℕ)
      (2 ^ 64)) ((columnSets scan policy).map getPossibleValuesAsArray)) := by
  have hloop := keyLoop_eq (columnSets scan policy) 1 [] hfin
  rw [show Int.bmod 1 (2 ^ 64) = 1 by decide, one_mul, nil_append] at hloop
  rw [getContentIdsFromPlanForSingleRelation, if_pos hrel, hpolicy]
  dsimp only
  rw [if_neg (by simp [hforce]), hseg]
  rw [if_pos ⟨hpart, length_pos_iff.2 hkeys⟩, ← columnSets, hloop, map_map]
  rfl

/-- What the property asks of a scan by its key: if it decides for direct dispatch, the decision
covers the rows. -/
def KeyDecisionCovers (numsegments : Int32) (sizes : List ℕ) : Prop :=
  ∀ (scan : Scan) (policy : GpPolicy) (result : DirectDispatchInfo), scan.isRelation = true →
    scan.policy = some policy → policy.ptype = .POLICYTYPE_PARTITIONED →
    policy.numsegments = numsegments →
    (∀ s ∈ columnSets scan policy, s.isAnyValuePossible = false) →
    ((columnSets scan policy).map getPossibleValuesAsArray).map length = sizes →
    contentIdsBySegmentId scan policy = some none →
    getContentIdsFromPlanForSingleRelation scan = some result → result.isDirectDispatch = true →
    CoversRows policy ((columnSets scan policy).map getPossibleValuesAsArray) result.contentIds

/-- The count of combinations, a `long`, does not wrap into the range that the code accepts: it is
the product of the set sizes, or it is not zero and refused, or there is only one segment. -/
def ProductCounted (numsegments : Int32) (sizes : List ℕ) : Prop :=
  Int.bmod (sizes.prod : ℕ) (2 ^ 64) = (sizes.prod : ℕ) ∨ (Int.bmod (sizes.prod : ℕ) (2 ^ 64) ≠ 0 ∧
      (Int.bmod (sizes.prod : ℕ) (2 ^ 64) < 0 ∨
        (numsegments * 3).toInt ≤ Int.bmod (sizes.prod : ℕ) (2 ^ 64) ∨ numsegments = 1))

theorem cdbhashreduce_one {h : CdbHash} (hn : h.numsegs = 1) : (cdbhashreduce h).toInt32 = 0 := by
  have hlt := cdbhashreduce_lt h (by rw [hn]; decide)
  rw [hn, show (1 : Int32).toInt = 1 by decide] at hlt
  have h0 : cdbhashreduce h = 0 := UInt32.toNat_inj.1 (by rw [UInt32.toNat_zero]; omega)
  rw [h0]
  rfl

theorem cdbhashRow_numsegs (f : CdbHashFuncs) (row : List (Option Datum)) : ∀ (i : ℕ) (h : CdbHash),
    (cdbhashRow f i row h).numsegs = h.numsegs ∧
    (cdbhashRow f i row h).reducealg = h.reducealg := by
  induction row with
  | nil => exact fun _ _ => ⟨rfl, rfl⟩
  | cons d ds ih => exact fun i h => ih (i + 1) (cdbhash f h i d)

theorem hashCombination_numsegs (f : CdbHashFuncs) (parts : List (List Const)) (i index : ℕ)
    (h : CdbHash) : (hashCombination f i parts index h).numsegs = h.numsegs := by
  induction parts generalizing i index h with
  | nil => rfl
  | cons values rest ih =>
    rw [hashCombination, ih]
    split <;> rfl

theorem contentIdsByKey_covers_one (hn : policy.numsegments = 1) (hne : total ≠ 0)
    (hrange : 0 < total ∧ total < (policy.numsegments * 3).toInt) :
    CoversRows policy parts (contentIdsByKey policy total parts).contentIds := by
  obtain ⟨-, hmem, hnil⟩ := contentIdsByKey_accepted policy parts hne hrange
  refine ⟨fun row _ => ?_, fun h => absurd h hnil⟩
  rw [segmentOfRow, cdbhashreduce_one ((cdbhashRow_numsegs _ _ _ _).1.trans hn), hmem]
  exact ⟨0, by omega, cdbhashreduce_one ((hashCombination_numsegs _ _ _ _ _).trans hn)⟩

theorem finite_of_sizes {sets : List PossibleValueSet}
    (hfin : ∀ s ∈ sets, s.isAnyValuePossible = false)
    (hsizes : (sets.map getPossibleValuesAsArray).map length = sizes)
    (hmax : ∀ n ∈ sizes, 8 * n ≤ MaxAllocSize) :
    ∀ s ∈ sets, s.isAnyValuePossible = false ∧
    8 * (getPossibleValuesAsArray s).length ≤ MaxAllocSize := by
  intro s hs
  refine ⟨hfin s hs, hmax _ ?_⟩
  rw [← hsizes, map_map]
  exact mem_map_of_mem hs

/-- **Sufficiency**: a counted product gives a covering decision. -/
theorem keyDecisionCovers_of_counted
    (hmax : ∀ n ∈ sizes, 8 * n ≤ MaxAllocSize) (h : ProductCounted numsegments sizes) :
    KeyDecisionCovers numsegments sizes := by
  intro scan policy result hrel hpolicy hpart hnum hfin hsizes hseg hresult hdirect
  have hfin' := finite_of_sizes hfin hsizes hmax
  by_cases hforce : scan.forceDistRandom = true
  · rw [getContentIdsFromPlanForSingleRelation, if_pos hrel, hpolicy] at hresult
    dsimp only at hresult
    rw [if_pos hforce] at hresult
    cases hresult
    exact absurd hdirect Bool.false_ne_true
  by_cases hkeys : policy.keys = []
  · rw [getContentIdsFromPlanForSingleRelation, if_pos hrel, hpolicy] at hresult
    dsimp only at hresult
    rw [if_neg hforce, hseg] at hresult
    rw [if_neg (by simp [hkeys])] at hresult
    cases hresult
    exact absurd hdirect Bool.false_ne_true
  rw [getContentIds_eq hrel hpolicy hpart (by simpa using hforce) hkeys hfin' hseg, hsizes,
    Option.some.injEq] at hresult
  subst hresult
  unfold ProductCounted at h
  generalize Int.bmod (sizes.prod : ℕ) (2 ^ 64) = total at h hdirect ⊢
  rcases h with h | ⟨hne, h⟩
  · exact contentIdsByKey_covers policy _ (by rw [h, hsizes]) hdirect
  -- a count in the accepted range is left only for one segment
  have hrange : 0 < total ∧ total < (policy.numsegments * 3).toInt := by
    by_contra hrange
    rw [contentIdsByKey, if_neg hne, if_neg hrange] at hdirect
    exact absurd hdirect Bool.false_ne_true
  rcases h with h | h | h
  · omega
  · rw [hnum] at hrange
    omega
  · exact contentIdsByKey_covers_one (hnum.trans h) hne hrange

/-! ## A product that wraps -/

theorem rotateLeft1_toNat (h : UInt32) :
    (rotateLeft1 h).toNat = 2 * h.toNat % 2 ^ 32 + (if h.toNat < 2 ^ 31 then 0 else 1) := by
  have hlt := h.toNat_lt
  have hshift : (h <<< 1).toNat = 2 ^ 1 * (h.toNat % 2 ^ 31) := by
    show h.toNat <<< 1 % 2 ^ 32 = _
    omega
  have htop : h &&& 0x80000000 = 0 ↔ h.toNat < 2 ^ 31 := by
    rw [← UInt32.toNat_inj, UInt32.toNat_and]
    show h.toNat &&& 2 ^ 31 = 0 ↔ _
    rw [and_two_pow, testBit_eq_decide_div_mod_eq]
    by_cases hb : h.toNat < 2 ^ 31
    · rw [div_eq_of_lt hb]
      exact iff_of_true rfl hb
    · have hdiv : h.toNat / 2 ^ 31 = 1 := by omega
      rw [hdiv]
      exact iff_of_false (by decide) hb
  rw [rotateLeft1, UInt32.toNat_or, hshift]
  by_cases hb : h.toNat < 2 ^ 31
  · rw [if_pos (htop.2 hb), if_pos hb, UInt32.toNat_zero, or_zero]
    omega
  · rw [if_neg (fun h0 => hb (htop.1 h0)), if_neg hb, UInt32.toNat_one,
      ← two_pow_add_eq_or_of_lt (by decide)]
    omega

theorem exists_rotateLeft1 (y : UInt32) : ∃ x, rotateLeft1 x = y := by
  have hy := y.toNat_lt
  have hlt : y.toNat / 2 + 2147483648 * (y.toNat % 2) < 2 ^ 32 := by omega
  refine ⟨UInt32.ofNat (y.toNat / 2 + 2147483648 * (y.toNat % 2)), UInt32.toNat_inj.1 ?_⟩
  rw [rotateLeft1_toNat, UInt32.toNat_ofNat_of_lt' hlt]
  rcases mod_two_eq_zero_or_one y.toNat with hp | hp <;> rw [hp] <;> split <;> omega

theorem exists_iterate_rotateLeft1 (n : ℕ) (y : UInt32) : ∃ x, rotateLeft1^[n] x = y := by
  induction n generalizing y with
  | zero => exact ⟨y, rfl⟩
  | succ n ih =>
    obtain ⟨z, hz⟩ := exists_rotateLeft1 y
    obtain ⟨x, hx⟩ := ih z
    exact ⟨x, by rw [Function.iterate_succ_apply', hx, hz]⟩

theorem jumpConsistentHash_zero (hn : 1 ≤ n.toInt) : jumpConsistentHash 0 n = 0 := by
  have hj : nextJump (jumpKey 0) 0 = 2 ^ 31 := by decide +kernel
  rw [jumpConsistentHash, jumpLoop_step (by omega), jumpLoop_exit]
  · rfl
  · have := n.toInt_lt
    omega

theorem le_jumpLoop (n : Int32) (key : UInt64) (b j : ℤ) (hj : 0 ≤ j) (hb : b ≤ j) :
    b ≤ jumpLoop n key b j hj := by
  induction key, b, j, hj using jumpLoop.induct n with
  | case1 key b j hj h ih =>
    rw [jumpLoop_step h]
    exact hb.trans (ih (lt_nextJump (jumpKey key) hj (h.trans n.toInt_lt)).1.le)
  | case2 key b j hj h => rw [jumpLoop_exit h]

theorem jumpConsistentHash_four (hn : 2 ≤ n.toInt) : jumpConsistentHash 4 n ≠ 0 := by
  intro h0
  have hj : nextJump (jumpKey 4) 0 = 1 := by decide +kernel
  have hval := jumpConsistentHash_toInt 4 (n := n) (by omega)
  rw [h0, jumpLoop_step (by omega), jumpLoop_step (by omega)] at hval
  have hle : nextJump (jumpKey 4) 0 ≤ (0 : Int32).toInt := by
    rw [hval]
    refine le_jumpLoop _ _ _ _ _ (lt_nextJump _ ?_ ?_).1.le
    · rw [hj]; decide
    · rw [hj]; decide
  rw [hj] at hle
  exact absurd hle (by decide)

theorem rowAllowed_rowOfDigits (f : CdbHashFuncs) (parts : List (List Const)) {i : ℕ} {ds : List ℕ}
    (h : DigitsBelow (parts.map length) ds) : RowAllowed f i parts (rowOfDigits parts ds) := by
  induction parts generalizing i ds with
  | nil =>
    cases ds with
    | nil => trivial
    | cons d ds => exact h.elim
  | cons values rest ih =>
    cases ds with
    | nil => exact h.elim
    | cons d ds =>
      obtain ⟨hd, hds⟩ := h
      refine ⟨⟨values[d], getElem_mem hd, fun hashkey => ?_⟩, ih hds⟩
      rw [getElem?_eq_getElem hd, Option.bind_some]

/-! ### A scan with sets of given sizes -/

/-- The integers below `n` as constants. -/
def valuesOfSize (n : ℕ) : List Const :=
  (range n).map fun j => ⟨INT8OID, -1, 0, 8, .word (BitVec.ofNat 64 j), false, true⟩

/-- Hash functions that tell a value other than 0 in column `k` from all the rest. -/
def markFuncs (k : ℕ) (key : UInt32) : CdbHashFuncs :=
  ⟨false, fun i _ d => if i = k ∧ d ≠ .word 0 then key else 0⟩

def markPolicy (numsegments : Int32) (sizes : List ℕ) (k : ℕ) (key : UInt32) : GpPolicy where
  ptype := .POLICYTYPE_PARTITIONED
  numsegments := numsegments
  keys := (range sizes.length).map fun i : ℕ =>
    (⟨1, (i : ℤ) + 1, INT8OID, -1, 0⟩, GP_SEGMENTID_OPFAMILY)
  funcs := markFuncs k key

/-- A relation whose `i`-th key column may have the integers below `sizes[i]`. -/
def markScan (numsegments : Int32) (sizes : List ℕ) (k : ℕ) (key : UInt32) : Scan where
  rangeTableIndex := 1
  isRelation := true
  forceDistRandom := false
  policy := some (markPolicy numsegments sizes k key)
  possible := fun v _ =>
    if v.varattno = GpSegmentIdAttributeNumber then initPossibleValueSetData
    else ⟨false, some (valuesOfSize (sizes.getD (v.varattno - 1).toNat 0))⟩

section Mark

variable (numsegments : Int32) (sizes : List ℕ) (k : ℕ) (key : UInt32)

theorem columnSets_markScan :
    columnSets (markScan numsegments sizes k key) (markPolicy numsegments sizes k key) =
    sizes.map fun n => ⟨false, some (valuesOfSize n)⟩ := by
  refine ext_getElem (by simp [columnSets, markPolicy]) fun i h₁ h₂ => ?_
  have hi : i < sizes.length := by simpa using h₂
  have hatt : ¬ ((i : ℤ) + 1 = -7) := by omega
  simp [columnSets, markPolicy, markScan, GpSegmentIdAttributeNumber, hatt, hi]

theorem finite_markScan : ∀ s ∈ columnSets (markScan numsegments sizes k key)
    (markPolicy numsegments sizes k key), s.isAnyValuePossible = false := by
  rw [columnSets_markScan]
  exact forall_mem_map.2 fun _ _ => rfl

theorem parts_markScan :
    (columnSets (markScan numsegments sizes k key) (markPolicy numsegments sizes k key)).map
      getPossibleValuesAsArray = sizes.map valuesOfSize := by
  rw [columnSets_markScan, map_map]
  rfl

theorem length_parts : (sizes.map valuesOfSize).map length = sizes := by
  rw [map_map]
  conv => rhs; rw [← map_id sizes]
  exact map_congr_left fun n _ => by simp [valuesOfSize]

theorem getContentIds_markScan (hne : sizes ≠ []) (hmax : ∀ n ∈ sizes, 8 * n ≤ MaxAllocSize) :
    getContentIdsFromPlanForSingleRelation (markScan numsegments sizes k key) =
      some (contentIdsByKey (markPolicy numsegments sizes k key)
        (Int.bmod (sizes.prod : ℕ) (2 ^ 64)) (sizes.map valuesOfSize)) := by
  have h := @getContentIds_eq (markPolicy numsegments sizes k key)
    (markScan numsegments sizes k key) rfl rfl rfl rfl (by simpa [markPolicy] using hne)
    (finite_of_sizes (finite_markScan numsegments sizes k key) ?_ hmax) rfl
  · rw [parts_markScan, length_parts] at h
    exact h
  · rw [parts_markScan, length_parts]

def digitRow (ds : List ℕ) : List (Option Datum) := ds.map fun d => some (.word (BitVec.ofNat 64 d))

theorem rowOfDigits_valuesOfSize (sizes : List ℕ) {ds : List ℕ} (h : DigitsBelow sizes ds) :
    rowOfDigits (sizes.map valuesOfSize) ds = digitRow ds := by
  induction sizes generalizing ds with
  | nil =>
    cases ds with
    | nil => rfl
    | cons d ds => exact h.elim
  | cons n sizes ih =>
    cases ds with
    | nil => exact h.elim
    | cons d ds =>
      obtain ⟨hd, hds⟩ := h
      rw [map_cons, rowOfDigits, ih hds, digitRow, digitRow, map_cons]
      simp [valuesOfSize, hd, constDatum]

theorem cdbhashRow_markFuncs (ds : List ℕ) {i : ℕ} {h : CdbHash}
    (hds : ∀ j d, ds[j]? = some d → i + j ≠ k ∨ d = 0) :
    (cdbhashRow (markFuncs k key) i (digitRow ds) h).hash = rotateLeft1^[ds.length] h.hash := by
  induction ds generalizing i h with
  | nil => rfl
  | cons d ds ih =>
    have hcol : hashColumn (markFuncs k key) i h.hash (some (.word (BitVec.ofNat 64 d))) =
        rotateLeft1 h.hash := by
      have hno : ¬ (i = k ∧ Datum.word (BitVec.ofNat 64 d) ≠ .word 0) := by
        rintro ⟨rfl, hd⟩
        rcases hds 0 d rfl with h | rfl
        · exact h rfl
        · exact hd rfl
      show rotateLeft1 h.hash ^^^ (if _ then key else 0) = _
      rw [if_neg hno, UInt32.xor_zero]
    have hih := ih (i := i + 1)
      (h := cdbhash (markFuncs k key) h i (some (.word (BitVec.ofNat 64 d)))) (fun j e he => by
        have := hds (j + 1) e he
        rwa [add_assoc, add_comm 1 j])
    rw [length_cons, Function.iterate_succ_apply, ← hcol]
    exact hih

theorem cdbhashRow_append (f : CdbHashFuncs) (a b : List (Option Datum)) (i : ℕ) (h : CdbHash) :
    cdbhashRow f i (a ++ b) h = cdbhashRow f (i + a.length) b (cdbhashRow f i a h) := by
  induction a generalizing i h with
  | nil => rfl
  | cons d ds ih =>
    rw [cons_append, cdbhashRow, ih, length_cons, add_assoc, add_comm 1]
    rfl

theorem iterate_rotateLeft1_zero (n : ℕ) : rotateLeft1^[n] 0 = 0 :=
  Function.iterate_fixed (by decide) n

theorem segmentOfRow_markFuncs (row : List (Option Datum)) :
    segmentOfRow (markFuncs k key) numsegments row =
      jumpConsistentHash (cdbhashRow (markFuncs k key) 0 row
        ⟨0, numsegments, .jumpHash⟩).hash.toUInt64 numsegments := by
  obtain ⟨hnum, halg⟩ := cdbhashRow_numsegs (markFuncs k key) row 0 ⟨0, numsegments, .jumpHash⟩
  show (cdbhashreduce (cdbhashRow (markFuncs k key) 0 row ⟨0, numsegments, .jumpHash⟩)).toInt32 = _
  rw [cdbhashreduce, halg, hnum]
  rfl

variable {numsegments sizes k}

theorem combinationSegment_markPolicy (hn : 1 ≤ numsegments.toInt) (hpos : ∀ n ∈ sizes, 0 < n)
    (hk : k < sizes.length) {index : ℕ} (hindex : index < (sizes.take k).prod) :
    combinationSegment (markPolicy numsegments sizes k key) (sizes.map valuesOfSize) index = 0 := by
  have hne : ∀ values ∈ sizes.map valuesOfSize, values ≠ [] := by
    intro values hv
    obtain ⟨n, hmem, rfl⟩ := mem_map.1 hv
    exact ne_nil_of_length_pos (by simpa [valuesOfSize] using hpos n hmem)
  have hrow : combinationSegment (markPolicy numsegments sizes k key) (sizes.map valuesOfSize)
      index = segmentOfRow (markFuncs k key) numsegments (digitRow (radixDigits sizes index)) := by
    rw [combinationSegment, hashCombination_eq _ _ hne, length_parts,
      rowOfDigits_valuesOfSize sizes (digitsBelow_radixDigits sizes index hpos)]
    rfl
  rw [hrow, segmentOfRow_markFuncs, cdbhashRow_markFuncs, iterate_rotateLeft1_zero]
  · exact jumpConsistentHash_zero hn
  intro j d hd
  by_cases hj : j = k
  · subst hj
    rw [radixDigits_eq_zero sizes hk hindex] at hd
    exact .inr (Option.some.inj hd).symm
  · exact .inl (by omega)

theorem segmentOfRow_mark (m : ℕ) :
    segmentOfRow (markFuncs k key) numsegments (digitRow (replicate k 0 ++ 1 :: replicate m 0)) =
      jumpConsistentHash (rotateLeft1^[m] key).toUInt64 numsegments := by
  have hbefore := cdbhashRow_markFuncs k key (replicate k 0) (i := 0)
    (h := ⟨0, numsegments, .jumpHash⟩)
    (fun j d hd => .inr (eq_of_mem_replicate (mem_of_getElem? hd)))
  rw [iterate_rotateLeft1_zero] at hbefore
  rw [segmentOfRow_markFuncs, digitRow, map_append, cdbhashRow_append, map_cons, cdbhashRow]
  rw [← digitRow, ← digitRow, cdbhashRow_markFuncs k key (replicate m 0)
    (fun j d hd => .inr (eq_of_mem_replicate (mem_of_getElem? hd))), length_replicate]
  have hlen : (digitRow (replicate k 0)).length = k := by simp [digitRow]
  have hmark : hashColumn (markFuncs k key) (0 + (digitRow (replicate k 0)).length) 0
      (some (.word (BitVec.ofNat 64 1))) = key := by
    rw [hlen, zero_add, hashColumn, if_neg (by simp [markFuncs])]
    show rotateLeft1 0 ^^^ (if _ then key else 0) = _
    rw [if_pos ⟨rfl, by decide⟩, show rotateLeft1 0 = 0 by decide, UInt32.zero_xor]
  rw [cdbhash, hbefore, hmark]

end Mark

/-- **Necessity**: a product that wraps into the accepted range loses rows. -/
theorem not_keyDecisionCovers (hn : 1 ≤ numsegments.toInt)
    (hne : sizes ≠ []) (hmax : ∀ n ∈ sizes, 8 * n ≤ MaxAllocSize)
    (h : ¬ ProductCounted numsegments sizes) : ¬ KeyDecisionCovers numsegments sizes := by
  intro hcovers
  have hpos : ∀ n ∈ sizes, 0 < n := by
    intro n hmem
    rcases Nat.eq_zero_or_pos n with rfl | hn
    · refine absurd (.inl ?_) h
      rw [prod_eq_zero_iff.2 hmem]
      rfl
    · exact hn
  -- what the property says of the scan with a mark in column `k`
  have hmark := fun k key =>
    hcovers (markScan numsegments sizes k key) (markPolicy numsegments sizes k key) _
      rfl rfl rfl rfl (finite_markScan numsegments sizes k key)
      (by rw [parts_markScan, length_parts]) rfl
      (getContentIds_markScan numsegments sizes k key hne hmax)
  simp only [parts_markScan] at hmark
  unfold ProductCounted at h
  have hbig : Int.bmod (sizes.prod : ℕ) (2 ^ 64) ≠ (sizes.prod : ℕ) → 2 ^ 63 ≤ sizes.prod := by
    intro hwrap
    by_contra hsmall
    exact hwrap (Int.bmod_eq_of_le (by omega) (by omega))
  generalize Int.bmod (sizes.prod : ℕ) (2 ^ 64) = total at h hmark hbig
  by_cases hzero : total = 0
  · -- nowhere, although no set is empty
    have hcov := (hmark 0 0 (by rw [contentIdsByKey, if_pos hzero])).2
      (by rw [contentIdsByKey, if_pos hzero])
    obtain ⟨n, hmem, hnil⟩ := mem_map.1 hcov
    have h0 : n = 0 := by simpa [valuesOfSize] using hnil
    exact absurd (hpos n hmem) (by omega)
  have hrange : 0 < total ∧ total < (numsegments * 3).toInt := by
    constructor
    · by_contra hneg
      exact h (.inr ⟨hzero, .inl (by omega)⟩)
    · by_contra hge
      exact h (.inr ⟨hzero, .inr (.inl (by omega))⟩)
  have htwo : 2 ≤ numsegments.toInt := by
    by_contra hlt
    exact h (.inr ⟨hzero, .inr (.inr (Int32.toInt_inj.1 (by
      rw [show (1 : Int32).toInt = 1 by decide]
      omega)))⟩)
  have hlt32 := (numsegments * 3).toInt_lt
  -- a column whose digit is 0 in all the combinations the loop visits
  obtain ⟨k, b, hk, hb, hle⟩ :=
    exists_base_after (m := 2 ^ 27) (t := total.toNat) (by decide) (by omega)
    sizes (fun n hmem => by have := hmax n hmem; unfold MaxAllocSize at this; omega) (by omega)
  have hklt : k < sizes.length := by
    by_contra hge
    rw [getElem?_eq_none (by omega)] at hk
    exact absurd hk (by simp)
  obtain ⟨key, hkey⟩ := exists_iterate_rotateLeft1 (sizes.length - k - 1) 4
  have hdigits := digitsBelow_single sizes hpos hk hb
  obtain ⟨hdirect, hids, -⟩ :=
    contentIdsByKey_accepted (markPolicy numsegments sizes k key) (sizes.map valuesOfSize) hzero
    hrange
  have hmem := (hmark k key hdirect).1 _
    (rowAllowed_rowOfDigits _ _ (by rw [length_parts]; exact hdigits))
  rw [rowOfDigits_valuesOfSize sizes hdigits] at hmem
  obtain ⟨index, hindex, hseg⟩ := (hids _).1 hmem
  rw [combinationSegment_markPolicy key (by omega) hpos hklt (lt_of_lt_of_le hindex hle)] at hseg
  have hrow := @segmentOfRow_mark numsegments k key (sizes.length - k - 1)
  rw [hkey] at hrow
  exact jumpConsistentHash_four htwo (hrow.symm.trans hseg.symm)

/-! ## Merging the decisions of a slice -/

/-- After some decisions: nothing, or direct dispatch that contains each of them, or none at all as
soon as one of them forbids it. -/
def MergedFrom (decisions : List DirectDispatchInfo) (r : DirectDispatchInfo) : Prop :=
  r.haveProcessedAnyCalculations = !decisions.isEmpty ∧
    (r.isDirectDispatch = true ↔ decisions ≠ [] ∧ ∀ d ∈ decisions, d.isDirectDispatch = true) ∧
    (r.isDirectDispatch = true → ∀ d ∈ decisions, ∀ id ∈ d.contentIds, id ∈ r.contentIds)

theorem mem_listUnionInt (l₁ l₂ : List Int32) (x : Int32) : x ∈ listUnionInt l₁ l₂ ↔ x ∈ l₁ ∨
    x ∈ l₂ := by
  have h := mem_foldl_listAppendUniqueInt id l₂ x l₁
  simpa [listUnionInt] using h

theorem merge_direct (hr : r.isDirectDispatch = true)
    (hp : r.haveProcessedAnyCalculations = true) (hd : d.isDirectDispatch = true) :
    (mergeDirectDispatchCalculationInfo r d).isDirectDispatch = true ∧
      ∀ id, id ∈ r.contentIds ∨ id ∈ d.contentIds →
        id ∈ (mergeDirectDispatchCalculationInfo r d).contentIds := by
  unfold mergeDirectDispatchCalculationInfo
  rw [if_neg (by simp [hd]), if_neg (by simp [hp]), if_neg (by simp [hr])]
  split
  next hnil => exact ⟨hr, fun id h => h.elim (fun h => h) (fun h => absurd (hnil ▸ h) not_mem_nil)⟩
  split
  next hnil => exact ⟨hr, fun id h => h.elim (fun h => absurd (hnil ▸ h) not_mem_nil) (fun h => h)⟩
  · exact ⟨hr, fun id h => (mem_listUnionInt _ _ _).2 h⟩

theorem MergedFrom.merge {decisions : List DirectDispatchInfo} (h : MergedFrom decisions r) :
    MergedFrom (decisions ++ [d]) (mergeDirectDispatchCalculationInfo r d) := by
  obtain ⟨hp, hdir, hids⟩ := h
  have hproc : (mergeDirectDispatchCalculationInfo r d).haveProcessedAnyCalculations =
      !(decisions ++ [d]).isEmpty := by
    simp [mergeDirectDispatchCalculationInfo]
  have hforbid : (mergeDirectDispatchCalculationInfo r d).isDirectDispatch = false →
      (¬ ∀ e ∈ decisions ++ [d], e.isDirectDispatch = true) →
      MergedFrom (decisions ++ [d]) (mergeDirectDispatchCalculationInfo r d) := fun hm hno =>
    ⟨hproc, iff_of_false (by simp [hm]) fun h => hno h.2, fun h => absurd h (by simp [hm])⟩
  by_cases hdd : d.isDirectDispatch = true
  · by_cases hnil : decisions = []
    · -- the first decision is taken as it is
      subst hnil
      have hr : r.haveProcessedAnyCalculations = false := hp
      have hm : mergeDirectDispatchCalculationInfo r d =
          { d with haveProcessedAnyCalculations := true } := by
        unfold mergeDirectDispatchCalculationInfo
        rw [if_neg (by simp [hdd]), if_pos (by simp [hr])]
      refine ⟨hproc, ?_⟩
      rw [hm]
      simp [hdd]
    · have hr : r.haveProcessedAnyCalculations = true := by
        rw [hp]
        simpa using hnil
      by_cases hrd : r.isDirectDispatch = true
      · obtain ⟨hmd, hmi⟩ := merge_direct hrd hr hdd
        obtain ⟨-, hall⟩ := hdir.1 hrd
        refine ⟨hproc, iff_of_true hmd ⟨by simp, forall_mem_append.2 ⟨hall,
          forall_mem_singleton.2 hdd⟩⟩, fun _ => forall_mem_append.2 ⟨fun e he id hid => ?_,
          forall_mem_singleton.2 ?_⟩⟩
        · exact hmi id (.inl (hids hrd e he id hid))
        · exact fun id hid => hmi id (.inr hid)
      -- an earlier decision forbade it
      refine hforbid ?_ fun hall => hrd (hdir.2 ⟨hnil, (forall_mem_append.1 hall).1⟩)
      unfold mergeDirectDispatchCalculationInfo
      rw [if_neg (by simp [hdd]), if_neg (by simp [hr]), if_pos (by simpa using hrd)]
      simpa using hrd
  · refine hforbid ?_ fun hall => hdd (hall d (by simp))
    unfold mergeDirectDispatchCalculationInfo
    rw [if_pos (by simpa using hdd)]

/-- **Decisions merged in any order**: direct dispatch to a superset of each, or none if some
decision forbids it. -/
theorem foldl_merge_covers (decisions : List DirectDispatchInfo) :
    MergedFrom decisions (decisions.foldl mergeDirectDispatchCalculationInfo
    initDirectDispatchCalculationInfo) := by
  induction decisions using reverseRecOn with
  | nil =>
    exact ⟨rfl, by simp [initDirectDispatchCalculationInfo],
      by simp [initDirectDispatchCalculationInfo]⟩
  | append_singleton decisions d ih =>
    rw [foldl_append]
    exact ih.merge

/-- What merging asks: for every list of decisions, in the order of the list. -/
def MergeCovers : Prop := ∀ decisions : List DirectDispatchInfo,
    MergedFrom decisions (decisions.foldl mergeDirectDispatchCalculationInfo
    initDirectDispatchCalculationInfo)

/-- **When direct dispatch covers every matching row**: for given set sizes and number of segments,
every decision by the distribution key covers its rows and merging loses none, exactly if the count
of combinations does not wrap into the accepted range. -/
theorem directDispatch_covers_iff (numsegments : Int32) (hn : 1 ≤ numsegments.toInt)
    (sizes : List ℕ) (hne : sizes ≠ []) (hmax : ∀ n ∈ sizes, 8 * n ≤ MaxAllocSize) :
    (KeyDecisionCovers numsegments sizes ∧ MergeCovers) ↔ ProductCounted numsegments sizes := by
  constructor
  · rintro ⟨hcovers, -⟩
    by_contra h
    exact not_keyDecisionCovers hn hne hmax h hcovers
  · intro h
    exact ⟨keyDecisionCovers_of_counted hmax h, foldl_merge_covers⟩

/-- Two columns with two and three possible values on four segments. -/
theorem directDispatch_covers_small : KeyDecisionCovers 4 [2, 3] ∧ MergeCovers :=
  (directDispatch_covers_iff 4 (by decide) [2, 3] (by decide) (by decide)).2 (.inl (by decide))

/-- **Sixty-four columns with two possible values each**: the count is 2^64, which is 0 as a `long`,
so the scan is dispatched nowhere. -/
theorem directDispatch_nowhere :
    getContentIdsFromPlanForSingleRelation (markScan 3 (replicate 64 2) 0 0) =
      some ⟨true, [], true⟩ ∧ ¬ KeyDecisionCovers 3 (replicate 64 2) := by
  have hdecision := getContentIds_markScan 3 (replicate 64 2) 0 0 (by decide) (by decide)
  refine ⟨hdecision.trans (by rfl), ?_⟩
  exact not_keyDecisionCovers (by decide) (by decide) (by decide) (by
    unfold ProductCounted
    decide)

/-! ## The nodes of a slice -/

/-- The switch over the nodes of a slice, in the order they are planned. -/
def updateFromNodes : List (PlanTag × Scan) → DirectDispatchInfo → Option DirectDispatchInfo
  | [], directDispatch => some directDispatch
  | (tag, scan) :: rest, directDispatch =>
    (directDispatchUpdateContentIdsFromPlan directDispatch tag scan).bind (updateFromNodes rest)

theorem getContentIds_processed
    (h : getContentIdsFromPlanForSingleRelation scan = some d) :
    d.haveProcessedAnyCalculations = true := by
  unfold getContentIdsFromPlanForSingleRelation at h
  split at h
  · cases h; rfl
  split at h
  · cases h; rfl
  split at h
  · cases h
  · cases h; rfl
  split at h
  · split at h
    · cases h
    rw [Option.some.injEq] at h
    subst h
    unfold contentIdsByKey
    split
    · rfl
    split <;> rfl
  · cases h; rfl

/-- The decision about a node is among those of the slice. -/
def Decided (ds : List DirectDispatchInfo) (node : PlanTag × Scan) : Prop :=
  (planAction node.1 = .disable → disableTargetedDispatch ∈ ds) ∧
    (planAction node.1 = .scan → ∃ d ∈ ds, getContentIdsFromPlanForSingleRelation node.2 = some d)

theorem Decided.cons {ds : List DirectDispatchInfo} {node : PlanTag × Scan} (h : Decided ds node) :
    Decided (d :: ds) node :=
  ⟨fun hact => mem_cons_of_mem _ (h.1 hact),
    fun hact => (h.2 hact).imp fun _ hd => ⟨mem_cons_of_mem _ hd.1, hd.2⟩⟩

theorem updateFromNodes_merged (nodes : List (PlanTag × Scan)) {decisions : List DirectDispatchInfo}
    {r result : DirectDispatchInfo} (h : MergedFrom decisions r)
    (hrun : updateFromNodes nodes r = some result) :
    ∃ ds, MergedFrom (decisions ++ ds) result ∧ ∀ node ∈ nodes, Decided ds node := by
  induction nodes generalizing decisions r result with
  | nil =>
    cases hrun
    exact ⟨[], by rwa [append_nil], nofun⟩
  | cons node nodes ih =>
    obtain ⟨tag, scan⟩ := node
    rw [updateFromNodes, Option.bind_eq_some_iff] at hrun
    obtain ⟨r₁, hstep, hrest⟩ := hrun
    unfold directDispatchUpdateContentIdsFromPlan at hstep
    cases hact : planAction tag with
    | noChange =>
      rw [hact] at hstep
      cases hstep
      obtain ⟨ds, hds, hnodes⟩ := ih h hrest
      refine ⟨ds, hds, forall_mem_cons.2 ⟨?_, hnodes⟩⟩
      simp [Decided, hact]
    | disable =>
      rw [hact] at hstep
      cases hstep
      obtain ⟨ds, hds, hnodes⟩ := ih h.merge hrest
      refine ⟨disableTargetedDispatch :: ds, by rwa [append_assoc] at hds,
        forall_mem_cons.2 ⟨?_, fun n hn => (hnodes n hn).cons⟩⟩
      simp [Decided, hact]
    | scan =>
      rw [hact] at hstep
      obtain ⟨d, hd, rfl⟩ := Option.map_eq_some_iff.1 hstep
      rw [if_pos (getContentIds_processed hd)] at hrest
      obtain ⟨ds, hds, hnodes⟩ := ih h.merge hrest
      refine ⟨d :: ds, by rwa [append_assoc] at hds,
        forall_mem_cons.2 ⟨?_, fun n hn => (hnodes n hn).cons⟩⟩
      simp [Decided, hact, hd]
    | error =>
      rw [hact] at hstep
      cases hstep

/-- **A slice**: if its nodes leave direct dispatch, none of them forbids it, and every scan among
them decided for direct dispatch and its content ids are kept. -/
theorem slice_covers {nodes : List (PlanTag × Scan)} {result : DirectDispatchInfo}
    (hrun : updateFromNodes nodes initDirectDispatchCalculationInfo = some result)
    (hdirect : result.isDirectDispatch = true) : ∀ node ∈ nodes, planAction node.1 ≠ .disable ∧
      (planAction node.1 = .scan → ∃ d, getContentIdsFromPlanForSingleRelation node.2 = some d ∧
        d.isDirectDispatch = true ∧ ∀ id ∈ d.contentIds, id ∈ result.contentIds) := by
  intro node hnode
  obtain ⟨ds, ⟨-, hall, hids⟩, hnodes⟩ := updateFromNodes_merged nodes (foldl_merge_covers []) hrun
  obtain ⟨hdis, hscan⟩ := hnodes node hnode
  have hdir := (hall.1 hdirect).2
  refine ⟨fun h => absurd (hdir _ (hdis h)) Bool.false_ne_true, fun h => ?_⟩
  obtain ⟨d, hd, hdec⟩ := hscan h
  exact ⟨d, hdec, hdir d hd, hids hdirect d hd⟩

/-- A limit over a scan whose key has two possible values, on two segments: both are kept. -/
theorem slice_covers_limit : ∃ d r, getContentIdsFromPlanForSingleRelation (markScan 3 [2] 0 4) =
    some d ∧ d.contentIds = [0, 1] ∧
    updateFromNodes [(.T_Limit, markScan 3 [2] 0 4), (.T_SeqScan, markScan 3 [2] 0 4)]
      initDirectDispatchCalculationInfo = some r ∧ ∀ id ∈ d.contentIds, id ∈ r.contentIds := by
  obtain ⟨r, hrun, hdirect⟩ :
      ∃ r, updateFromNodes [(.T_Limit, markScan 3 [2] 0 4), (.T_SeqScan, markScan 3 [2] 0 4)]
      initDirectDispatchCalculationInfo = some r ∧ r.isDirectDispatch = true :=
      ⟨_, rfl, by decide +kernel⟩
  obtain ⟨e, he, hids⟩ : ∃ e, getContentIdsFromPlanForSingleRelation (markScan 3 [2] 0 4) =
      some e ∧ e.contentIds = [0, 1] := ⟨_, rfl, by decide +kernel⟩
  obtain ⟨d, hd, -, hkept⟩ :=
    (slice_covers hrun hdirect (.T_SeqScan, markScan 3 [2] 0 4) (by simp)).2 rfl
  have hde : d = e := Option.some.inj (hd.symm.trans he)
  exact ⟨d, r, hd, by rw [hde, hids], hrun, hkept⟩

end PolemoDB.Cdb
