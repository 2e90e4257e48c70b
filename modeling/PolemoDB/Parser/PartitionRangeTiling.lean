import Mathlib.Tactic.Linarith
import PolemoDB.Lib.CutRanges
import PolemoDB.Parser.PartitionRange

/-!
# Generated range partitions tile the clause

The partitions that `generateRangePartitions` makes for a transformed clause meet, and hold together
the values from the new START to before the new END, each in one partition (`generateLoop_meets`);
the walk ends for every step function, since it goes up in a type with finitely many values
(`generateLoop_terminates`).
-/

namespace PolemoDB.Parser

open PolemoDB.Lib PartEveryIterator PartitionBoundSpec TimeTzADT

/-! ## The btree orders -/

theorem TimeTzADT.gmt_zone_injective :
    Function.Injective fun v : TimeTzADT => (toLex (v.gmt, v.zone) : ℤ ×ₗ ℤ) := by
  intro a b h
  obtain ⟨hg, hz⟩ := Prod.mk.inj (toLex.injective h)
  have ht : a.time = b.time := by
    rw [gmt, gmt, hz] at hg
    exact add_right_cancel hg
  cases a
  simp_all

/-- The order of `timetz`. -/
instance : LinearOrder TimeTzADT :=
  LinearOrder.lift' (fun v => (toLex (v.gmt, v.zone) : ℤ ×ₗ ℤ)) gmt_zone_injective

theorem TimeTzADT.lt_iff (a b : TimeTzADT) : a < b ↔ a.gmt < b.gmt ∨
    (a.gmt = b.gmt ∧ a.zone < b.zone) :=
  Prod.Lex.toLex_lt_toLex (x := (a.gmt, a.zone)) (y := (b.gmt, b.zone))

/-- The btree order of each type. -/
instance : (t : PartColType) → LinearOrder t.Value
  | .int2 => Int.instLinearOrder
  | .int4 => Int.instLinearOrder
  | .int8 => Int.instLinearOrder
  | .date => Int.instLinearOrder
  | .time => Int.instLinearOrder
  | .timetz => inferInstanceAs (LinearOrder TimeTzADT)
  | .timestamp => Int.instLinearOrder
  | .timestamptz => Int.instLinearOrder

theorem intCmp_neg_iff (a b : ℤ) : intCmp a b < 0 ↔ a < b := by
  rw [intCmp]
  split_ifs <;> omega

theorem intCmp_pos_iff (a b : ℤ) : 0 < intCmp a b ↔ b < a := by
  rw [intCmp]
  split_ifs <;> omega

theorem timetzCmpInternal_neg_iff (a b : TimeTzADT) : timetzCmpInternal a b < 0 ↔ a < b := by
  rw [lt_iff, timetzCmpInternal]
  split_ifs <;> omega

theorem timetzCmpInternal_pos_iff (a b : TimeTzADT) : 0 < timetzCmpInternal a b ↔ b < a := by
  rw [lt_iff, timetzCmpInternal]
  split_ifs <;> omega

section

variable (t : PartColType) (a b : t.Value)

theorem PartColType.cmp_neg_iff : t.cmp a b < 0 ↔ a < b := by
  cases t with
  | int2 => exact sub_neg
  | timetz => exact timetzCmpInternal_neg_iff a b
  | _ => exact intCmp_neg_iff a b

theorem PartColType.cmp_pos_iff : 0 < t.cmp a b ↔ b < a := by
  cases t with
  | int2 => exact sub_pos
  | timetz => exact timetzCmpInternal_pos_iff a b
  | _ => exact intCmp_pos_iff a b

theorem PartColType.cmp_nonneg_iff : 0 ≤ t.cmp a b ↔ b ≤ a := by
  rw [← not_lt, t.cmp_neg_iff, not_lt]

theorem PartColType.cmp_nonpos_iff : t.cmp a b ≤ 0 ↔ a ≤ b := by
  rw [← not_lt, t.cmp_pos_iff, not_lt]

theorem PartColType.cmp_eq_zero_iff : t.cmp a b = 0 ↔ a = b := by
  rw [le_antisymm_iff, t.cmp_nonpos_iff, t.cmp_nonneg_iff, le_antisymm_iff]

end

/-! ## Partitions as ranges of the order -/

section Ranges

variable {t : PartColType} (r : PartitionBoundSpec t)

/-- A bound of a partition, MAXVALUE above every value. -/
def upperBound : Option t.Value → WithTop t.Value
  | none => ⊤
  | some u => u

@[simp] theorem upperBound_none : upperBound (none : Option t.Value) = ⊤ := rfl

@[simp] theorem upperBound_some (u : t.Value) : upperBound (some u) = (u : WithTop t.Value) := rfl

/-- The lower end of a partition. -/
def PartitionBoundSpec.lo : WithTop t.Value :=
  (r.lowerdatum : WithTop t.Value)

/-- The upper end of a partition. -/
def PartitionBoundSpec.hi : WithTop t.Value := upperBound r.upperdatum

theorem all_cmp_neg_iff (o : Option t.Value) (x : t.Value) :
    (o.all fun u => decide (t.cmp x u < 0)) = true ↔ (x : WithTop t.Value) < upperBound o := by
  cases o with
  | none => simp [WithTop.coe_lt_top]
  | some u => simp [t.cmp_neg_iff]

theorem PartitionBoundSpec.contains_iff (x : t.Value) :
      r.contains x = true ↔ InRange lo hi r (x : WithTop t.Value) := by
  rw [contains, Bool.and_eq_true, all_cmp_neg_iff, decide_eq_true_eq,
    t.cmp_nonpos_iff, InRange, lo, hi, WithTop.coe_le_coe]

theorem PartitionBoundSpec.nonempty_iff : r.nonempty = true ↔ r.lo < r.hi :=
  all_cmp_neg_iff r.upperdatum r.lowerdatum

end Ranges

/-! ## One round of the loop -/

section Loop

variable {t : PartColType}

/-- What holds of the iterator between two rounds. -/
structure PartEveryIterator.Sound (iter : PartEveryIterator t) : Prop where
  reached : iter.endReached = true → iter.currEnd = iter.endVal
  single : iter.plusexprstate = none → iter.called = iter.endReached

/-- One round: the next partition starts where the last ended, and ends at END or before it. -/
structure Advances (iter iter' : PartEveryIterator t) : Prop where
  endVal : iter'.endVal = iter.endVal
  isEndValMaxValue : iter'.isEndValMaxValue = iter.isEndValMaxValue
  plusexprstate : iter'.plusexprstate = iter.plusexprstate
  called : iter'.called = true
  notReached : iter.endReached = false
  currStart : iter'.currStart = iter.currEnd
  currEnd : (iter'.endReached = true ∧ iter'.currEnd = iter.endVal) ∨
    (iter'.endReached = false ∧ iter.currEnd < iter'.currEnd ∧ iter'.currEnd < iter.endVal ∧
      ∃ plusexpr, iter.plusexprstate = some plusexpr ∧
      plusexpr iter.currEnd = .ok (some iter'.currEnd))

variable {iter iter' : PartEveryIterator t}

theorem nextEveryBound_advances {next : t.Value} {plusexpr : PlusExpr t}
    (hp : iter.plusexprstate = some plusexpr) (hn : plusexpr iter.currEnd = .ok (some next))
    (hr : iter.endReached = false) (h : nextEveryBound iter next = .ok iter') :
    Advances iter iter' := by
  rw [nextEveryBound] at h
  split at h
  · cases h
    exact ⟨rfl, rfl, rfl, rfl, hr, rfl, .inl ⟨rfl, rfl⟩⟩
  next hend =>
    split at h <;> cases h
    next hnext =>
      have hlt : next < iter.endVal := by rwa [ge_iff_le, t.cmp_nonneg_iff, not_le] at hend
      have hgt : iter.currEnd < next := by rwa [ge_iff_le, t.cmp_nonneg_iff, not_le] at hnext
      exact ⟨rfl, rfl, rfl, rfl, hr, rfl, .inr ⟨hr, hgt, hlt, plusexpr, hp, hn⟩⟩

theorem nextPartBound_advances (hs : iter.Sound)
    (h : nextPartBound iter = .ok (some iter')) : Advances iter iter' := by
  rw [nextPartBound] at h
  split at h
  next plusexpr hp =>
    split at h
    · cases h
    next hr =>
      split at h
      · cases h
      · cases h
      next next hn =>
        cases hb : nextEveryBound iter next with
        | error e =>
          rw [hb] at h
          cases h
        | ok it =>
          rw [hb] at h
          cases h
          exact nextEveryBound_advances hp hn (Bool.eq_false_iff.2 hr) hb
  next hp =>
    split at h <;> cases h
    next hc =>
      have hr : iter.endReached = false := by
        rw [← hs.single hp]
        exact Bool.eq_false_iff.2 hc
      exact ⟨rfl, rfl, rfl, rfl, hr, rfl, .inl ⟨rfl, rfl⟩⟩

theorem nextPartBound_none (hs : iter.Sound) (h : nextPartBound iter = .ok none) :
    iter.endReached = true := by
  rw [nextPartBound] at h
  split at h
  · split at h
    · assumption
    split at h
    · cases h
    · cases h
    next next hn =>
      cases hb : nextEveryBound iter next with
      | error e | ok it =>
        rw [hb] at h
        cases h
  next hp =>
    split at h
    next hc =>
      rw [← hs.single hp]
      exact hc
    · cases h

theorem Advances.sound (h : Advances iter iter') : iter'.Sound := by
  constructor
  · intro hr
    rcases h.currEnd with ⟨-, hc⟩ | ⟨hr', -⟩
    · rw [hc, h.endVal]
    · rw [hr'] at hr
      cases hr
  intro hp
  rcases h.currEnd with ⟨hr, -⟩ | ⟨-, -, -, plusexpr, hp', -⟩
  · rw [h.called, hr]
  · rw [h.plusexprstate, hp'] at hp
    cases hp

theorem nextPartBound_reached (hs : iter.Sound) (hr : iter.endReached = true) :
    nextPartBound iter = .ok none := by
  rw [nextPartBound]
  split
  · rw [if_pos hr]
  next hp => rw [if_pos ((hs.single hp).trans hr)]

/-! ## The whole walk -/

/-- Where the next partition starts. -/
def PartEveryIterator.bound (iter : PartEveryIterator t) : WithTop t.Value := iter.boundspec.hi

/-- Where the last partition ends. -/
def PartEveryIterator.limit (iter : PartEveryIterator t) : WithTop t.Value :=
  upperBound (if iter.isEndValMaxValue then none else some iter.endVal)

theorem PartEveryIterator.bound_of_not_reached
    (hr : iter.endReached = false) : iter.bound = (iter.currEnd : WithTop t.Value) := by
  rw [bound, boundspec, hi, hr]
  rfl

theorem generateLoop_meets {fuel : ℕ} {l : List (PartitionBoundSpec t)}
    (hs : iter.Sound) (h : generateLoop fuel iter = some (.ok l)) :
    MeetFrom lo hi iter.bound l iter.limit := by
  induction fuel generalizing iter l with
  | zero => cases h
  | succ fuel ih =>
    rw [generateLoop] at h
    split at h
    · cases h
    next hn =>
      cases h
      have hr := nextPartBound_none hs hn
      rw [MeetFrom, bound, boundspec, hi, limit, hr, Bool.true_and, hs.reached hr]
    next iter' hn =>
      have hadv := nextPartBound_advances hs hn
      split at h <;> cases h
      next result hl =>
        have hrest := ih hadv.sound hl
        have hlimit : iter'.limit = iter.limit := by
          rw [limit, limit, hadv.endVal, hadv.isEndValMaxValue]
        refine ⟨?_, hlimit ▸ hrest⟩
        rw [bound_of_not_reached hadv.notReached]
        exact congrArg _ hadv.currStart

theorem generateLoop_ne_nil {fuel : ℕ} {l : List (PartitionBoundSpec t)}
    (hs : iter.Sound) (hr : iter.endReached = false) (h : generateLoop fuel iter = some (.ok l)) :
    l ≠ [] := by
  cases fuel with
  | zero => cases h
  | succ fuel =>
    rw [generateLoop] at h
    split at h
    · cases h
    next hn =>
      rw [nextPartBound_none hs hn] at hr
      cases hr
    · split at h
      · cases h
      · cases h
      · cases h
        exact List.cons_ne_nil _ _

/-- A rank that bounds the number of rounds: it goes up with the order, and stays below a bound. -/
structure Ranked (iter : PartEveryIterator t) (P : t.Value → Prop) (rank : t.Value → ℤ) (B : ℤ) :
    Prop where
  step : ∀ plusexpr, iter.plusexprstate = some plusexpr → ∀ v w, plusexpr v = .ok (some w) → P w
  mono : ∀ v w, P v → P w → v < w → rank v < rank w
  bounded : ∀ v, P v → v < iter.endVal → rank v < B

theorem generateLoop_round (hs : iter.Sound) (m : ℕ)
    (hrest : ∀ iter', Advances iter iter' → iter'.endReached = false →
      ∃ r, ∀ fuel ≥ m + 1, generateLoop fuel iter' = some r) :
    ∃ r, ∀ fuel ≥ m + 2, generateLoop fuel iter = some r := by
  have hafter : ∀ iter', nextPartBound iter = .ok (some iter') →
      ∃ r, ∀ fuel ≥ m + 1, generateLoop fuel iter' = some r := by
    intro iter' hn
    have hadv := nextPartBound_advances hs hn
    by_cases hr : iter'.endReached = true
    · refine ⟨.ok [], fun fuel hfuel => ?_⟩
      obtain ⟨k, rfl⟩ : ∃ k, fuel = k + 1 := ⟨fuel - 1, by omega⟩
      rw [generateLoop, nextPartBound_reached hadv.sound hr]
    · exact hrest iter' hadv (Bool.eq_false_iff.2 hr)
  have hfuel : ∀ fuel ≥ m + 2, ∃ k, fuel = k + 1 ∧ k ≥ m + 1 := fun fuel h =>
    ⟨fuel - 1, by omega, by omega⟩
  cases hn : nextPartBound iter with
  | error e =>
    refine ⟨.error e, fun fuel h => ?_⟩
    obtain ⟨k, rfl, -⟩ := hfuel fuel h
    rw [generateLoop, hn]
  | ok o =>
    cases o with
    | none =>
      refine ⟨.ok [], fun fuel h => ?_⟩
      obtain ⟨k, rfl, -⟩ := hfuel fuel h
      rw [generateLoop, hn]
    | some iter' =>
      obtain ⟨r, hr⟩ := hafter iter' hn
      refine ⟨r.map (iter'.boundspec :: ·), fun fuel h => ?_⟩
      obtain ⟨k, rfl, hk⟩ := hfuel fuel h
      rw [generateLoop, hn]
      simp only [hr k hk]
      cases r <;> rfl

theorem generateLoop_terminates {P : t.Value → Prop} {rank : t.Value → ℤ} {B : ℤ} (n : ℕ)
    {iter : PartEveryIterator t} (hs : iter.Sound) (hrank : Ranked iter P rank B)
    (hP : P iter.currEnd) (hB : B ≤ rank iter.currEnd + n) :
    ∃ r, ∀ fuel ≥ n + 2, generateLoop fuel iter = some r := by
  refine generateLoop_round hs n fun iter' hadv hr => ?_
  obtain ⟨-, hlt, hend, plusexpr, hp, hv⟩ := hadv.currEnd.resolve_left fun h => by simp [hr] at h
  have hP' := hrank.step plusexpr hp _ _ hv
  have h1 := hrank.mono _ _ hP hP' hlt
  cases n with
  | zero =>
    have h2 := hrank.bounded _ hP' hend
    omega
  | succ n =>
    have hrank' : Ranked iter' P rank B :=
      ⟨fun p hp' => hrank.step p (hadv.plusexprstate ▸ hp'), hrank.mono, by
        rw [hadv.endVal]
        exact hrank.bounded⟩
    exact generateLoop_terminates n hadv.sound hrank' hP' (by omega)

end Loop

/-! ## Ranks of the types -/

/-- Values of integers, and of `timetz` with a displacement within the limit. -/
def PartColType.InZone : (t : PartColType) → t.Value → Prop
  | .timetz, v => -TZDISP_LIMIT < v.zone ∧ v.zone < TZDISP_LIMIT
  | _, _ => True

/-- The position of a value in the order of its type. -/
def PartColType.rank : (t : PartColType) → t.Value → ℤ
  | .int2, v => v
  | .int4, v => v
  | .int8, v => v
  | .date, v => v
  | .time, v => v
  | .timetz, v => v.gmt * (2 * TZDISP_LIMIT) + v.zone
  | .timestamp, v => v
  | .timestamptz, v => v

theorem PartColType.inZone_of_valid (t : PartColType) {v : t.Value} (h : t.Valid v) :
    t.InZone v := by
  cases t with
  | timetz => exact h.2
  | _ => trivial

theorem PartColType.rank_lt_rank (t : PartColType) (v w : t.Value) (hv : t.InZone v)
    (hw : t.InZone w) (h : v < w) : t.rank v < t.rank w := by
  cases t with
  | timetz =>
    obtain ⟨hv1, hv2⟩ := hv
    obtain ⟨hw1, hw2⟩ := hw
    show gmt v * (2 * TZDISP_LIMIT) + v.zone < gmt w * (2 * TZDISP_LIMIT) + w.zone
    unfold TZDISP_LIMIT at *
    rcases (lt_iff v w).1 h with hg | ⟨hg, hz⟩ <;> omega
  | _ => exact h

/-- A rank above those of the values before `e`. -/
def PartColType.rankBound : (t : PartColType) → t.Value → ℤ
  | .int2, e => e
  | .int4, e => e
  | .int8, e => e
  | .date, e => e
  | .time, e => e
  | .timetz, e => e.gmt * (2 * TZDISP_LIMIT) + TZDISP_LIMIT
  | .timestamp, e => e
  | .timestamptz, e => e

theorem PartColType.rank_lt_rankBound (t : PartColType) (v e : t.Value) (hv : t.InZone v)
    (h : v < e) : t.rank v < t.rankBound e := by
  cases t with
  | timetz =>
    obtain ⟨hv1, hv2⟩ := hv
    show gmt v * (2 * TZDISP_LIMIT) + v.zone < gmt e * (2 * TZDISP_LIMIT) + TZDISP_LIMIT
    unfold TZDISP_LIMIT at *
    rcases (lt_iff v e).1 h with hg | ⟨hg, -⟩ <;> omega
  | _ => exact h

theorem PartColType.plusOne_inZone (t : PartColType) {v w : t.Value} (hv : t.InZone v)
    (h : t.plusOne v = some w) : t.InZone w := by
  cases t with
  | timetz =>
    change plusOneTimetz v = some w at h
    rw [plusOneTimetz] at h
    split at h <;> cases h
    · exact hv
  | _ => trivial

end PolemoDB.Parser
