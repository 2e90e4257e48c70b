import PolemoDB.Parser.PartitionRangeTiling

/-!
# What START, END and EVERY mean

The generated partitions tile the values between the converted bounds. Whether these are the values
that the clause names depends on whether a converted bound means what the original one did. For
every type but `timetz` plus one is the next value of the type, and the bound marked as NULL is the
last one. The order of `timetz` compares the true time before the zone: between a value and the
value whose local time is one microsecond later there are others, of other zones, and 24:00:00 is
the last time of its own zone only.

Principal result: `rangePartitions_mean_iff`, a clause of given edges means what it says for all
values and steps unless the type is `timetz` and a bound is converted.
-/

namespace PolemoDB.Parser

open PolemoDB.Lib PartitionBoundSpec

variable {t : PartColType}

/-! ## The converted bounds -/

/-- The first value of the first partition. -/
def PartitionRangeItem.StartsAt (start : PartitionRangeItem t) (v : t.Value) : Prop :=
  if start.edge = .exclusive then t.plusOne start.val.constvalue = some v
  else v = start.val.constvalue

/-- The bound of the last partition. -/
def PartitionRangeItem.EndsAt (item : PartitionRangeItem t) (b : WithTop t.Value) : Prop :=
  if item.edge = .inclusive then b = upperBound (t.plusOne item.val.constvalue)
  else b = (item.val.constvalue : WithTop t.Value)

/-- A constant as a bound: NULL stands for MAXVALUE. -/
def Const.toBound (c : Const t) : WithTop t.Value :=
  upperBound (if c.constisnull then none else some c.constvalue)

variable {c : Const t} {spec : GpPartitionRangeSpec t} {v w x : ℤ}

theorem convert_ok {c' : Const t} {isStart : Bool} (hc : c.constisnull = false)
    (h : convertExclusiveStartInclusiveEnd c (-1) isStart = .ok c') :
    (t.plusOne c.constvalue = some c'.constvalue ∧ c'.constisnull = false) ∨
      (t.plusOne c.constvalue = none ∧ c'.constisnull = true) := by
  rw [convertExclusiveStartInclusiveEnd, if_neg fun hp => hp.1 rfl] at h
  split at h
  · cases h
    exact .inl ⟨by assumption, hc⟩
  · cases h
    exact .inr ⟨by assumption, rfl⟩

variable {start : PartitionRangeItem t} {max noend : ℤ}

theorem transformStart_ok (h : transformStart (-1) start = .ok c) :
    start.StartsAt c.constvalue := by
  rw [transformStart] at h
  split at h
  · cases h
  next hnull =>
    rw [PartitionRangeItem.StartsAt]
    split at h
    next hedge =>
      rw [if_pos hedge]
      split at h
      · cases h
      next c' hconv =>
        split at h <;> cases h
        next hnull' =>
          rcases convert_ok (Bool.eq_false_iff.2 hnull) hconv with ⟨hp, -⟩ | ⟨-, hn⟩
          · exact hp
          · exact absurd hn hnull'
    next hedge =>
      cases h
      rw [if_neg hedge]

theorem transformEnd_ok {item : PartitionRangeItem t}
    (h : transformEnd (-1) item = .ok c) : item.EndsAt c.toBound := by
  rw [transformEnd] at h
  split at h
  · cases h
  next hnull =>
    rw [PartitionRangeItem.EndsAt, Const.toBound]
    split at h
    next hedge =>
      rw [if_pos hedge]
      rcases convert_ok (Bool.eq_false_iff.2 hnull) h with ⟨hp, hn⟩ | ⟨hp, hn⟩
      · rw [hp, hn]
        rfl
      · rw [hp, hn]
        rfl
    next hedge =>
      cases h
      rw [if_neg hedge, if_neg hnull]
      rfl

theorem transform_ok {spec' : GpPartitionRangeSpec t}
    (h : transformGpPartDefElemWithRangeSpec (-1) spec = .ok spec') :
    spec.partStart.StartsAt spec'.partStart.val.constvalue ∧
      spec.partEnd.EndsAt spec'.partEnd.val.toBound ∧ spec'.partEvery = spec.partEvery := by
  rw [transformGpPartDefElemWithRangeSpec] at h
  split at h
  · cases h
  next hstart =>
    split at h <;> cases h
    next hend => exact ⟨transformStart_ok hstart, transformEnd_ok hend, rfl⟩

theorem initPartEveryIterator_sound (start endBound : Const t) (every : Option (PlusExpr t)) :
    (initPartEveryIterator start endBound every).Sound :=
  ⟨fun h => absurd h Bool.false_ne_true, fun _ => rfl⟩

theorem rangePartitions_meets {fuel : ℕ} {tablename : Option String}
    {l : List (PartitionBoundSpec t)}
    (h : rangePartitions fuel (-1) tablename spec = some (.ok l)) :
    ∃ (s : t.Value) (b : WithTop t.Value), spec.partStart.StartsAt s ∧ spec.partEnd.EndsAt b ∧
      MeetFrom lo hi (s : WithTop t.Value) l b ∧ l ≠ [] := by
  rw [rangePartitions] at h
  split at h
  · cases h
  next spec' hspec =>
    obtain ⟨hstart, hend, -⟩ := transform_ok hspec
    refine ⟨_, _, hstart, hend, ?_, ?_⟩
    · exact generateLoop_meets (initPartEveryIterator_sound _ _ _) h
    · exact generateLoop_ne_nil (initPartEveryIterator_sound _ _ _) rfl h

/-! ## Termination -/

/-- START, END and the results of the step are values of the type. -/
structure GpPartitionRangeSpec.WellTyped (spec : GpPartitionRangeSpec t) : Prop where
  validStart : t.Valid spec.partStart.val.constvalue
  validEnd : t.Valid spec.partEnd.val.constvalue
  validEvery : ∀ plusexpr, spec.partEvery = some plusexpr → ∀ v w, plusexpr v = .ok (some w) →
    t.Valid w

theorem PartitionRangeItem.StartsAt.inZone {v : t.Value}
    (h : start.StartsAt v) (hv : t.Valid start.val.constvalue) : t.InZone v := by
  rw [PartitionRangeItem.StartsAt] at h
  split at h
  · exact t.plusOne_inZone (t.inZone_of_valid hv) h
  · exact h ▸ t.inZone_of_valid hv

theorem rangePartitions_terminates (tablename : Option String) (hspec : spec.WellTyped) :
    ∃ n r, ∀ fuel ≥ n, rangePartitions fuel (-1) tablename spec = some r := by
  cases htr : transformGpPartDefElemWithRangeSpec (-1) spec with
  | error e =>
    refine ⟨0, .error e, fun fuel _ => ?_⟩
    rw [rangePartitions, htr]
  | ok spec' =>
    obtain ⟨hstart, -, hevery⟩ := transform_ok htr
    let every := if tablename.isNone then spec'.partEvery else none
    let iter := initPartEveryIterator spec'.partStart.val spec'.partEnd.val every
    have hrank : Ranked iter t.InZone t.rank (t.rankBound spec'.partEnd.val.constvalue) := by
      refine ⟨fun p hp v w hw => ?_, t.rank_lt_rank, fun v => t.rank_lt_rankBound v _⟩
      have hp' : every = some p := hp
      simp only [every] at hp'
      split at hp'
      · exact t.inZone_of_valid (hspec.validEvery p (hevery ▸ hp') v w hw)
      · cases hp'
    have hcur : iter.currEnd = spec'.partStart.val.constvalue := rfl
    obtain ⟨n, hn⟩ : ∃ n : ℕ, t.rankBound spec'.partEnd.val.constvalue ≤ t.rank iter.currEnd + n :=
      ⟨(t.rankBound spec'.partEnd.val.constvalue - t.rank iter.currEnd).toNat, by omega⟩
    obtain ⟨r, hr⟩ := generateLoop_terminates n (initPartEveryIterator_sound _ _ _) hrank
      (hcur ▸ hstart.inZone hspec.validStart) hn
    refine ⟨n + 2, r, fun fuel hfuel => ?_⟩
    rw [rangePartitions, htr]
    exact hr fuel hfuel

/-! ## Plus one as the next value -/

/-- Plus one is the next value of the type, and only the last value has none. -/
structure PartColType.PlusOneIsNext (t : PartColType) : Prop where
  next : ∀ v w, t.plusOne v = some w → ∀ x, v < x ↔ w ≤ x
  last : ∀ v, t.Valid v → t.plusOne v = none → ∀ x, t.Valid x → x ≤ v

theorem plusOneInt_next (h : plusOneInt max v = some w) (x : ℤ) : v < x ↔ w ≤ x := by
  rw [plusOneInt] at h
  split at h <;> cases h
  · omega

theorem plusOneInt_last (h : plusOneInt max v = none) (hx : x ≤ max) : x ≤ v := by
  rw [plusOneInt] at h
  split at h
  · cases h
  · omega

theorem plusOneUnless_next (h : plusOneUnless noend v = some w) (x : ℤ) : v < x ↔ w ≤ x := by
  rw [plusOneUnless] at h
  split at h <;> cases h
  · omega

theorem plusOneUnless_last (h : plusOneUnless noend v = none) (hx : x ≤ noend) : x ≤ v := by
  rw [plusOneUnless] at h
  split at h
  · cases h
  · omega

theorem plusOneTime_next (h : plusOneTime v = some w) (x : ℤ) : v < x ↔ w ≤ x := by
  rw [plusOneTime] at h
  split at h <;> cases h
  · omega

theorem tmHour_eq_iff (h : validTime v) : tmHour v = HOURS_PER_DAY ↔ v = USECS_PER_DAY := by
  obtain ⟨h0, h1⟩ := h
  rw [tmHour, Int.tdiv_eq_ediv_of_nonneg h0]
  unfold USECS_PER_HOUR HOURS_PER_DAY USECS_PER_DAY at *
  omega

theorem plusOneTime_last (hv : validTime v) (h : plusOneTime v = none) (hx : validTime x) :
    x ≤ v := by
  rw [plusOneTime] at h
  split at h
  · cases h
  next hhour =>
    rw [(tmHour_eq_iff hv).1 (not_not.1 hhour)]
    exact hx.2

theorem validDate_le (h : validDate x) : x ≤ DATEVAL_NOEND := by
  unfold validDate DATETIME_MIN_JULIAN POSTGRES_EPOCH_JDATE DATE_END_JULIAN DATEVAL_NOBEGIN at h
  unfold DATEVAL_NOEND PG_INT32_MAX at *
  omega

theorem validTimestamp_le (h : validTimestamp x) : x ≤ DT_NOEND := by
  unfold validTimestamp MIN_TIMESTAMP END_TIMESTAMP DT_NOBEGIN at h
  unfold DT_NOEND PG_INT64_MAX at *
  omega

theorem PartColType.plusOneIsNext (t : PartColType) (ht : t ≠ .timetz) : t.PlusOneIsNext := by
  cases t with
  | int2 | int4 | int8 =>
    exact ⟨fun _ _ h x => plusOneInt_next h x, fun _ _ h x hx => plusOneInt_last h hx.2⟩
  | date =>
    exact ⟨fun _ _ h x => plusOneUnless_next h x,
      fun _ _ h x hx => plusOneUnless_last h (validDate_le hx)⟩
  | time => exact ⟨fun _ _ h x => plusOneTime_next h x, fun _ hv h x hx => plusOneTime_last hv h hx⟩
  | timetz => exact absurd rfl ht
  | timestamp | timestamptz =>
    exact ⟨fun _ _ h x => plusOneUnless_next h x,
      fun _ _ h x hx => plusOneUnless_last h (validTimestamp_le hx)⟩

/-! ## The values of the clause -/

theorem GpPartitionRangeSpec.covers_iff (spec : GpPartitionRangeSpec t) (x : t.Value) :
      spec.covers x = true ↔ (spec.partStart.val.constvalue < x ∧ x < spec.partEnd.val.constvalue) ∨
        (x = spec.partStart.val.constvalue ∧ spec.partStart.edge ≠ .exclusive) ∨
        (x = spec.partEnd.val.constvalue ∧ spec.partEnd.edge = .inclusive) := by
  simp only [GpPartitionRangeSpec.covers, Bool.or_eq_true, Bool.and_eq_true, decide_eq_true_eq,
    t.cmp_neg_iff, t.cmp_eq_zero_iff, or_assoc]

section Between

variable {spec : GpPartitionRangeSpec t} {s : t.Value} {b : WithTop t.Value}

/-- What the proofs below need: plus one is the next value, or no bound was converted. -/
def GpPartitionRangeSpec.Faithful (spec : GpPartitionRangeSpec t) : Prop :=
  t.PlusOneIsNext ∨ (spec.partStart.edge ≠ .exclusive ∧ spec.partEnd.edge ≠ .inclusive)

theorem GpPartitionRangeSpec.Faithful.start_le_iff (hf : spec.Faithful)
    (hs : spec.partStart.StartsAt s) (x : t.Value) : s ≤ x ↔ spec.partStart.val.constvalue < x ∨
      (x = spec.partStart.val.constvalue ∧ spec.partStart.edge ≠ .exclusive) := by
  rw [PartitionRangeItem.StartsAt] at hs
  by_cases hedge : spec.partStart.edge = .exclusive
  · have ht : t.PlusOneIsNext := hf.resolve_right fun h => h.1 hedge
    rw [if_pos hedge] at hs
    simp [hedge, ht.next _ _ hs x]
  · rw [if_neg hedge] at hs
    simp [hedge, hs, le_iff_lt_or_eq, eq_comm]

theorem GpPartitionRangeSpec.Faithful.lt_end_iff (hf : spec.Faithful) (hspec : spec.WellTyped)
    (hb : spec.partEnd.EndsAt b) {x : t.Value} (hx : t.Valid x) :
    (x : WithTop t.Value) < b ↔ x < spec.partEnd.val.constvalue ∨
      (x = spec.partEnd.val.constvalue ∧ spec.partEnd.edge = .inclusive) := by
  rw [PartitionRangeItem.EndsAt] at hb
  by_cases hedge : spec.partEnd.edge = .inclusive
  · have ht : t.PlusOneIsNext := hf.resolve_right fun h => h.2 hedge
    rw [if_pos hedge] at hb
    simp only [hedge, and_true, ← le_iff_lt_or_eq, hb]
    cases hp : t.plusOne spec.partEnd.val.constvalue with
    | none => simp [WithTop.coe_lt_top, ht.last _ hspec.validEnd hp x hx]
    | some w => rw [upperBound_some, WithTop.coe_lt_coe, ← not_le, ← ht.next _ w hp, not_lt]
  · rw [if_neg hedge] at hb
    simp [hedge, hb]

section

variable (hf : spec.Faithful) (hspec : spec.WellTyped) (hs : spec.partStart.StartsAt s)
  (hb : spec.partEnd.EndsAt b) (hlt : (s : WithTop t.Value) < b)
include hf hspec hs hb hlt

theorem GpPartitionRangeSpec.Faithful.start_lt_end :
    spec.partStart.val.constvalue < spec.partEnd.val.constvalue ∨
      (spec.partStart.val.constvalue = spec.partEnd.val.constvalue ∧
        spec.partStart.edge ≠ .exclusive ∧ spec.partEnd.edge = .inclusive) := by
  have hstart := hf.start_le_iff hs
  by_cases hedge : spec.partStart.edge = .exclusive
  · -- the converted START need not be a value of the type, but the value before it is
    left
    have ht : t.PlusOneIsNext := hf.resolve_right fun h => h.1 hedge
    have hlts : spec.partStart.val.constvalue < s := by simpa [hedge] using (hstart s).1 le_rfl
    rw [PartitionRangeItem.StartsAt, if_pos hedge] at hs
    rw [PartitionRangeItem.EndsAt] at hb
    split at hb
    · cases hp : t.plusOne spec.partEnd.val.constvalue with
      | none =>
        refine lt_of_le_of_ne (ht.last _ hspec.validEnd hp _ hspec.validStart) fun heq => ?_
        rw [heq, hp] at hs
        cases hs
      | some w =>
        rw [hb, hp, upperBound_some, WithTop.coe_lt_coe, ← not_le, ← ht.next _ w hp, not_lt] at hlt
        exact hlts.trans_le hlt
    · rw [hb, WithTop.coe_lt_coe] at hlt
      exact hlts.trans hlt
  · rw [PartitionRangeItem.StartsAt, if_neg hedge] at hs
    rw [hs, hf.lt_end_iff hspec hb hspec.validStart] at hlt
    exact hlt.imp_right fun h => ⟨h.1, hedge, h.2⟩

theorem GpPartitionRangeSpec.Faithful.covers_iff_between
    {x : t.Value} (hx : t.Valid x) :
    spec.covers x = true ↔ (s : WithTop t.Value) ≤ x ∧ (x : WithTop t.Value) < b := by
  have hord := hf.start_lt_end hspec hs hb hlt
  rw [spec.covers_iff, WithTop.coe_le_coe, hf.start_le_iff hs, hf.lt_end_iff hspec hb hx]
  constructor
  · rintro (⟨h1, h2⟩ | ⟨rfl, h1⟩ | ⟨rfl, h1⟩)
    · exact ⟨.inl h1, .inl h2⟩
    · exact ⟨.inr ⟨rfl, h1⟩, hord.imp_right fun h => ⟨h.1, h.2.2⟩⟩
    · exact ⟨hord.imp_right fun h => ⟨h.1.symm, h.2.1⟩, .inr ⟨rfl, h1⟩⟩
  rintro ⟨h1 | h1, h2 | h2⟩
  · exact .inl ⟨h1, h2⟩
  · exact .inr (.inr h2)
  · exact .inr (.inl h1)
  · exact .inr (.inr h2)

end

end Between

/-! ## What the clause means -/

/-- The loop ends, and if the partitions it makes are not empty, then they meet, a value of the
clause is in one of them and no other value is in any. -/
structure MeansWhatItSays (tablename : Option String) (spec : GpPartitionRangeSpec t) : Prop where
  terminates : ∃ n r, ∀ fuel ≥ n, rangePartitions fuel (-1) tablename spec = some r
  meet : ∀ fuel l, rangePartitions fuel (-1) tablename spec = some (.ok l) →
    (∀ r ∈ l, r.nonempty = true) → l.IsChain fun r r' => r.upperdatum = some r'.lowerdatum
  exactly : ∀ fuel l, rangePartitions fuel (-1) tablename spec = some (.ok l) →
    (∀ r ∈ l, r.nonempty = true) → ∀ x, t.Valid x →
    l.countP (·.contains x) = if spec.covers x then 1 else 0

theorem PartitionBoundSpec.upperdatum_of_hi_eq_lo {r r' : PartitionBoundSpec t} (h : r.hi = r'.lo) :
    r.upperdatum = some r'.lowerdatum := by
  rw [hi, lo] at h
  cases hu : r.upperdatum with
  | none =>
    rw [hu, upperBound_none] at h
    exact absurd h.symm WithTop.coe_ne_top
  | some u =>
    rw [hu, upperBound_some] at h
    rw [WithTop.coe_injective h]

theorem GpPartitionRangeSpec.Faithful.means (hf : spec.Faithful)
    (hspec : spec.WellTyped) (tablename : Option String) : MeansWhatItSays tablename spec := by
  refine ⟨rangePartitions_terminates tablename hspec, fun fuel l h _ => ?_,
    fun fuel l h hne x hx => ?_⟩
  · obtain ⟨s, b, -, -, hmeet, -⟩ := rangePartitions_meets h
    exact hmeet.isChain.imp fun r r' => upperdatum_of_hi_eq_lo
  obtain ⟨s, b, hs, hb, hmeet, hnil⟩ := rangePartitions_meets h
  have hne' : ∀ r ∈ l, r.lo < r.hi := fun r hr => r.nonempty_iff.1 (hne r hr)
  have hcover := hf.covers_iff_between hspec hs hb (hmeet.lt hne' hnil) hx
  have hcount := hmeet.countP hne' (x : WithTop t.Value)
  simp only [← contains_iff, Bool.decide_eq_true] at hcount
  rw [hcount]
  simp only [hcover]

/-! ## Zones -/

/-- `START ('10:00+00') EXCLUSIVE END ('20:00+00')`. -/
def exclusiveStartSpec (endEdge : PartEdge) : GpPartitionRangeSpec .timetz where
  partStart := ⟨⟨⟨36000000000, 0⟩, false⟩, .exclusive⟩
  partEnd := ⟨⟨⟨72000000000, 0⟩, false⟩, endEdge⟩
  partEvery := none

variable (startEdge : PartEdge)

/-- `START ('00:00+00') END ('10:00+00') INCLUSIVE`. -/
def inclusiveEndSpec : GpPartitionRangeSpec .timetz where
  partStart := ⟨⟨⟨0, 0⟩, false⟩, startEdge⟩
  partEnd := ⟨⟨⟨36000000000, 0⟩, false⟩, .inclusive⟩
  partEvery := none

/-- `'09:00-01'`: the same true time as `'10:00+00'`, and after it. -/
def nineWest : TimeTzADT := ⟨32400000000, 3600⟩

theorem nineWest_valid : PartColType.timetz.Valid nineWest := by
  refine ⟨⟨?_, ?_⟩, ?_, ?_⟩ <;> decide

theorem validGmt {time : ℤ} (h : validTime time) : PartColType.timetz.Valid ⟨time, 0⟩ :=
  ⟨h, show -TZDISP_LIMIT < 0 by decide, show 0 < TZDISP_LIMIT by decide⟩

theorem exclusiveStartSpec_wellTyped (endEdge : PartEdge) :
    (exclusiveStartSpec endEdge).WellTyped :=
  ⟨validGmt ⟨by decide, by decide⟩, validGmt ⟨by decide, by decide⟩, fun _ h => nomatch h⟩

theorem inclusiveEndSpec_wellTyped : (inclusiveEndSpec startEdge).WellTyped :=
  ⟨validGmt ⟨by decide, by decide⟩, validGmt ⟨by decide, by decide⟩, fun _ h => nomatch h⟩

theorem exclusiveStartSpec_loses (endEdge : PartEdge) : ∃ r : PartitionBoundSpec .timetz,
    rangePartitions 2 (-1) none (exclusiveStartSpec endEdge) = some (.ok [r]) ∧ r.nonempty = true ∧
      r.contains nineWest = false ∧ (exclusiveStartSpec endEdge).covers nineWest = true := by
  cases endEdge with
  | inclusive =>
    exact ⟨⟨⟨36000000001, 0⟩, some ⟨72000000001, 0⟩⟩, rfl, by decide, by decide, by decide⟩
  | _ => exact ⟨⟨⟨36000000001, 0⟩, some ⟨72000000000, 0⟩⟩, rfl, by decide, by decide, by decide⟩

theorem inclusiveEndSpec_adds : ∃ r : PartitionBoundSpec .timetz,
    rangePartitions 2 (-1) none (inclusiveEndSpec startEdge) = some (.ok [r]) ∧ r.nonempty = true ∧
      r.contains nineWest = true ∧ (inclusiveEndSpec startEdge).covers nineWest = false := by
  cases startEdge with
  | exclusive => exact ⟨⟨⟨1, 0⟩, some ⟨36000000001, 0⟩⟩, rfl, by decide, by decide, by decide⟩
  | _ => exact ⟨⟨⟨0, 0⟩, some ⟨36000000001, 0⟩⟩, rfl, by decide, by decide, by decide⟩

/-- **A clause means what it says, for all values of the type and all steps, unless the type is
`timetz` and START is exclusive or END inclusive.** -/
theorem rangePartitions_mean_iff (t : PartColType) (startEdge endEdge : PartEdge) :
    (∀ (tablename : Option String) (spec : GpPartitionRangeSpec t), spec.WellTyped →
      spec.partStart.edge = startEdge → spec.partEnd.edge = endEdge →
      MeansWhatItSays tablename spec) ↔ t ≠ .timetz ∨
      (startEdge ≠ .exclusive ∧ endEdge ≠ .inclusive) := by
  constructor
  · intro h
    by_contra hcon
    obtain ⟨rfl, hedges⟩ := not_or.1 hcon |>.imp_left not_not.1
    by_cases hstart : startEdge = .exclusive
    · subst hstart
      obtain ⟨r, hr, hne, hout, hin⟩ := exclusiveStartSpec_loses endEdge
      have hcount := (h none _ (exclusiveStartSpec_wellTyped endEdge) rfl rfl).exactly 2 [r] hr
        (by simpa using hne) nineWest nineWest_valid
      rw [hin] at hcount
      simp [hout] at hcount
    obtain rfl : endEdge = .inclusive := by
      by_contra hend
      exact hedges ⟨hstart, hend⟩
    obtain ⟨r, hr, hne, hin, hout⟩ := inclusiveEndSpec_adds startEdge
    have hcount := (h none _ (inclusiveEndSpec_wellTyped startEdge) rfl rfl).exactly 2 [r] hr
      (by simpa using hne) nineWest nineWest_valid
    rw [hout] at hcount
    simp [hin] at hcount
  · rintro h tablename spec hspec rfl rfl
    have hf : spec.Faithful := h.imp_left t.plusOneIsNext
    exact hf.means hspec tablename

/-- `START ('00:00+00') END ('10:00+00') INCLUSIVE` makes one partition, and it holds `'09:00-01'`,
which is after `'10:00+00'`. -/
theorem rangePartitions_hold_later : rangePartitions 2 (-1) none (inclusiveEndSpec .unspecified) =
        some (.ok [⟨⟨0, 0⟩, some ⟨36000000001, 0⟩⟩]) ∧
      (⟨⟨0, 0⟩, some ⟨36000000001, 0⟩⟩ : PartitionBoundSpec .timetz).nonempty = true ∧
      (⟨⟨0, 0⟩, some ⟨36000000001, 0⟩⟩ : PartitionBoundSpec .timetz).contains nineWest = true ∧
      timetzCmpInternal ⟨36000000000, 0⟩ nineWest < 0 ∧
      (inclusiveEndSpec .unspecified).covers nineWest = false :=
  ⟨rfl, by decide, by decide, by decide, by decide⟩

end PolemoDB.Parser
