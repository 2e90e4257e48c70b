import Mathlib.Algebra.Order.Group.Nat
import Mathlib.Data.List.Basic
import Mathlib.Data.Nat.Find

/-!
# Records in a byte sequence

A scanner says where the first record of a sequence ends, looking only at what comes before. The
record boundaries of a sequence are what scanning from the left finds. Two scanners: a machine that
reads one symbol after the other and starts anew at each record end, and the search for a delimiter.

For a delimiter, the last occurrence is a boundary if no two occurrences overlap.
-/

namespace PolemoDB.Lib

open List Option Nat

universe u v

/-! ## Scanners -/

/-- Where the first record ends; more symbols after a record end do not change it. -/
structure Scanner (β : Type u) where
  first : List β → Option ℕ
  bounds : ∀ {l : List β} {n : ℕ}, first l = some n → 0 < n ∧ n ≤ l.length
  stable : ∀ {l m : List β} {n : ℕ}, n ≤ l.length → (first (l ++ m) = some n ↔ first l = some n)

section Boundaries

variable {β : Type u} {S : Scanner β}

/-- A record boundary of the sequence, found by scanning from the left. -/
inductive Boundary (S : Scanner β) : List β → ℕ → Prop where
  | first {l : List β} {n : ℕ} (h : S.first l = some n) : Boundary S l n
  | next {l : List β} {n m : ℕ} (h : S.first l = some n) (hm : Boundary S (l.drop n) m) :
    Boundary S l (n + m)

theorem Boundary.bounds {l : List β} {n : ℕ} (h : Boundary S l n) : 0 < n ∧ n ≤ l.length := by
  induction h with
  | first h => exact S.bounds h
  | next h _ ih =>
    rw [length_drop] at ih
    omega

theorem Boundary.trans {l : List β} {n m : ℕ} (h : Boundary S l n) (hm : Boundary S (l.drop n) m) :
    Boundary S l (n + m) := by
  induction h with
  | first h => exact Boundary.next h hm
  | next h _ ih =>
    rw [add_assoc]
    exact Boundary.next h (ih (by rwa [drop_drop]))

theorem Boundary.append {l : List β} {n : ℕ} (h : Boundary S l n) (m : List β) :
    Boundary S (l ++ m) n := by
  induction h with
  | first h => exact Boundary.first ((S.stable (S.bounds h).2).2 h)
  | next h _ ih =>
    refine Boundary.next ((S.stable (S.bounds h).2).2 h) ?_
    rwa [drop_append_of_le_length (S.bounds h).2]

/-- The last record end in a sequence: no complete record follows it. -/
def IsLast (S : Scanner β) (l : List β) : Option ℕ → Prop
  | none => S.first l = none
  | some n => Boundary S l n ∧ S.first (l.drop n) = none

theorem Boundary.first_ne_none {l : List β} {n : ℕ} (h : Boundary S l n) : S.first l ≠ none := by
  cases h with
  | first h | next h => simp [h]

theorem Boundary.eq_of_last {l : List β} {n : ℕ} (h : Boundary S l n)
    (hlast : S.first (l.drop n) = none) {m : ℕ} (hm : Boundary S l m)
    (hlast' : S.first (l.drop m) = none) : n = m := by
  induction h generalizing m with
  | first h =>
    cases hm with
    | first h' => exact some.inj (h.symm.trans h')
    | next h' hm' =>
      obtain rfl := some.inj (h.symm.trans h')
      exact absurd hlast hm'.first_ne_none
  | next h hn ih =>
    rw [← drop_drop] at hlast
    cases hm with
    | first h' =>
      obtain rfl := some.inj (h.symm.trans h')
      exact absurd hlast' hn.first_ne_none
    | next h' hm' =>
      obtain rfl := some.inj (h.symm.trans h')
      rw [← drop_drop] at hlast'
      rw [ih hlast hm' hlast']

/-- There is only one last record end. -/
theorem IsLast.unique {l : List β} {r r' : Option ℕ} (h : IsLast S l r) (h' : IsLast S l r') :
    r = r' := by
  cases r with
  | none =>
    cases r' with
    | none => rfl
    | some n => exact absurd h h'.1.first_ne_none
  | some n =>
    cases r' with
    | none => exact absurd h' h.1.first_ne_none
    | some m => rw [h.1.eq_of_last h.2 h'.1 h'.2]

end Boundaries

/-! ## Machines -/

/-- Reads symbols and reports record ends, after which it is as at the start. -/
structure RecordMachine (σ : Type v) (β : Type u) where
  init : σ
  step : σ → β → σ × Bool
  reset : ∀ s b, (step s b).2 = true → (step s b).1 = init

section Machine

variable {σ : Type v} {β : Type u} (M : RecordMachine σ β)

/-- The position after the first record end if `one`, else after the last one; `pos` symbols were
read before and `last` is the last end among them. -/
def RecordMachine.scan (one : Bool) : σ → List β → ℕ → Option ℕ → Option ℕ
  | _, [], _, last => last
  | s, b :: bs, pos, last =>
    if (M.step s b).2 then
      if one then some (pos + 1) else scan one (M.step s b).1 bs (pos + 1) (some (pos + 1))
    else scan one (M.step s b).1 bs (pos + 1) last

def RecordMachine.firstEnd : σ → List β → Option ℕ
  | _, [] => none
  | s, b :: bs => if (M.step s b).2 then some 1 else (firstEnd (M.step s b).1 bs).map (· + 1)

theorem RecordMachine.scan_one (s : σ) (l : List β) (pos : ℕ) :
    M.scan true s l pos none = (M.firstEnd s l).map (pos + ·) := by
  induction l generalizing s pos with
  | nil => rfl
  | cons b l ih =>
    rw [scan, firstEnd]
    split
    · rfl
    rw [ih, Option.map_map]
    congr 1
    funext n
    simp only [Function.comp_apply]
    omega

theorem RecordMachine.scan_all (s : σ) (l : List β) (pos : ℕ) (last : Option ℕ) :
      M.scan false s l pos last = match M.firstEnd s l with
      | none => last
      | some n => M.scan false M.init (l.drop n) (pos + n) (some (pos + n)) := by
  induction l generalizing s pos with
  | nil => rfl
  | cons b l ih =>
    rw [scan, firstEnd]
    by_cases hend : (M.step s b).2 = true
    · rw [if_pos hend, if_pos hend, if_neg (by simp), M.reset s b hend]
      rfl
    rw [if_neg hend, if_neg hend, ih]
    cases M.firstEnd (M.step s b).1 l with
    | none => rfl
    | some n =>
      show M.scan false M.init (l.drop n) (pos + 1 + n) _ =
        M.scan false M.init (l.drop n) (pos + (n + 1)) _
      rw [show pos + 1 + n = pos + (n + 1) by omega]

theorem RecordMachine.firstEnd_bounds {s : σ} {l : List β} {n : ℕ} (h : M.firstEnd s l = some n) :
    0 < n ∧ n ≤ l.length := by
  induction l generalizing s n with
  | nil => exact absurd h (by simp [firstEnd])
  | cons b l ih =>
    rw [firstEnd] at h
    split at h
    · obtain rfl := some.inj h
      simp
    obtain ⟨m, hm, rfl⟩ := map_eq_some_iff.1 h
    have := ih hm
    simp only [length_cons]
    omega

theorem RecordMachine.firstEnd_stable {s : σ} {l m : List β} {n : ℕ} (hn : n ≤ l.length) :
    M.firstEnd s (l ++ m) = some n ↔ M.firstEnd s l = some n := by
  induction l generalizing s n with
  | nil =>
    obtain rfl : n = 0 := le_zero.1 hn
    exact iff_of_false (fun h => absurd (M.firstEnd_bounds h).1 (lt_irrefl 0)) (by simp [firstEnd])
  | cons b l ih =>
    rw [cons_append, firstEnd, firstEnd]
    split
    · rfl
    rw [map_eq_some_iff, map_eq_some_iff]
    refine exists_congr fun k => and_congr_left fun hk => ih ?_
    rw [length_cons] at hn
    omega

def RecordMachine.scanner : Scanner β where
  first := fun l => M.scan true M.init l 0 none
  bounds := by
    intro l n h
    rw [scan_one, Option.map_eq_some_iff] at h
    obtain ⟨k, hk, rfl⟩ := h
    rw [zero_add]
    exact M.firstEnd_bounds hk
  stable := by
    intro l m n hn
    simp only [scan_one, zero_add, Option.map_id']
    exact M.firstEnd_stable hn

theorem RecordMachine.scanner_first (l : List β) : M.scanner.first l = M.firstEnd M.init l := by
  show M.scan true M.init l 0 none = _
  simp only [scan_one, zero_add, Option.map_id']

theorem RecordMachine.scan_last (k : ℕ) : ∀ (l : List β), l.length ≤ k →
    ∀ (pos : ℕ) (last : Option ℕ),
      (M.scanner.first l = none ∧ M.scan false M.init l pos last = last) ∨
      ∃ n, Boundary M.scanner l n ∧ M.scanner.first (l.drop n) = none ∧
        M.scan false M.init l pos last = some (pos + n) := by
  induction k with
  | zero =>
    intro l hl pos last
    obtain rfl := length_eq_zero_iff.1 (le_zero.1 hl)
    exact .inl ⟨rfl, rfl⟩
  | succ k ih =>
    intro l hl pos last
    rw [scan_all]
    cases hfirst : M.firstEnd M.init l with
    | none => exact .inl ⟨by rw [scanner_first, hfirst], rfl⟩
    | some n =>
      have hb := M.firstEnd_bounds hfirst
      have hB : Boundary M.scanner l n := Boundary.first (by rw [scanner_first, hfirst])
      rcases ih (l.drop n) (by rw [length_drop]; omega) (pos + n) (some (pos + n)) with
        ⟨hnone, hscan⟩ | ⟨m, hm, hnone, hscan⟩
      · exact .inr ⟨n, hB, hnone, hscan⟩
      · refine .inr ⟨n + m, hB.trans hm, by rwa [← drop_drop], ?_⟩
        show M.scan false M.init (l.drop n) (pos + n) (some (pos + n)) = _
        rw [hscan, add_assoc]

theorem RecordMachine.scan_isLast (l : List β) :
    IsLast M.scanner l (M.scan false M.init l 0 none) := by
  rcases M.scan_last l.length l le_rfl 0 none with ⟨hnone, hscan⟩ | ⟨n, hB, hnone, hscan⟩
  · rw [hscan]
    exact hnone
  · rw [hscan, zero_add]
    exact ⟨hB, hnone⟩

end Machine

/-! ## Delimiters -/

section Delimiter

variable {β : Type u}

/-- The delimiter occurs at the position. -/
def OccursAt (d l : List β) (i : ℕ) : Prop := d <+: l.drop i

/-- A shift of the delimiter onto itself: two occurrences can overlap. -/
def Overlaps (d : List β) : Prop := ∃ t, 0 < t ∧ t < d.length ∧ d.drop t = d.take (d.length - t)

variable {d l : List β} {i : ℕ}

theorem OccursAt.le (hd : d ≠ []) (h : OccursAt d l i) : i + d.length ≤ l.length := by
  have hlen := h.length_le
  have := length_pos_iff.2 hd
  rw [length_drop] at hlen
  omega

theorem occursAt_append {m : List β} (hi : i + d.length ≤ l.length) :
    OccursAt d (l ++ m) i ↔ OccursAt d l i := by
  unfold OccursAt
  rw [drop_append_of_le_length (by omega)]
  constructor
  · intro h
    exact prefix_of_prefix_length_le h (prefix_append _ _) (by rw [length_drop]; omega)
  · exact fun h => h.trans (prefix_append _ _)

theorem overlaps_of_occursAt {t : ℕ} (ht : 0 < t) (htd : t < d.length) (hi : OccursAt d l i)
    (hit : OccursAt d l (i + t)) : Overlaps d := by
  refine ⟨t, ht, htd, ?_⟩
  obtain ⟨r, hr⟩ := hi
  obtain ⟨r', hr'⟩ := hit
  rw [← drop_drop, ← hr, drop_append_of_le_length htd.le] at hr'
  have hlen : (d.drop t).length = d.length - t := length_drop
  calc d.drop t = (d.drop t ++ r).take (d.length - t) := by rw [← hlen, take_left]
    _ = (d ++ r').take (d.length - t) := by rw [hr']
    _ = d.take (d.length - t) := take_append_of_le_length (by omega)

variable [DecidableEq β]

instance (d l : List β) (i : ℕ) : Decidable (OccursAt d l i) :=
  inferInstanceAs (Decidable (d <+: l.drop i))

/-- Where the first occurrence of the delimiter ends. -/
def firstMatch (d : List β) : List β → Option ℕ
  | [] => if d = [] then some 0 else none
  | b :: bs => if d <+: b :: bs then some d.length else (firstMatch d bs).map (· + 1)

/-- Where the last occurrence at or before a position ends. -/
def lastMatch (d l : List β) : ℕ → Option ℕ
  | 0 => if OccursAt d l 0 then some d.length else none
  | i + 1 => if OccursAt d l (i + 1) then some (i + 1 + d.length) else lastMatch d l i

theorem firstMatch_some_iff (hd : d ≠ []) (l : List β) (n : ℕ) : firstMatch d l = some n ↔
    ∃ i, n = i + d.length ∧ OccursAt d l i ∧ ∀ j < i, ¬ OccursAt d l j := by
  induction l generalizing n with
  | nil =>
    rw [firstMatch, if_neg hd]
    refine iff_of_false (by simp) ?_
    rintro ⟨i, -, hi, -⟩
    have := hi.le hd
    have := length_pos_iff.2 hd
    rw [length_nil] at *
    omega
  | cons b l ih =>
    rw [firstMatch]
    by_cases h : d <+: b :: l
    · rw [if_pos h, some.injEq]
      constructor
      · rintro rfl
        exact ⟨0, (zero_add _).symm, h, fun j hj => absurd hj (not_lt_zero j)⟩
      · rintro ⟨i, rfl, -, hmin⟩
        obtain rfl : i = 0 := Nat.eq_zero_of_not_pos fun hpos => hmin 0 hpos h
        exact (zero_add _).symm
    · rw [if_neg h, map_eq_some_iff]
      constructor
      · rintro ⟨m, hm, rfl⟩
        obtain ⟨i, rfl, hi, hmin⟩ := (ih m).1 hm
        refine ⟨i + 1, by omega, hi, fun j hj => ?_⟩
        cases j with
        | zero => exact h
        | succ j => exact hmin j (lt_of_succ_lt_succ hj)
      rintro ⟨i, rfl, hi, hmin⟩
      cases i with
      | zero => exact absurd hi h
      | succ i =>
        refine ⟨i + d.length, (ih _).2 ⟨i, rfl, hi, fun j hj => hmin (j + 1) (succ_lt_succ hj)⟩,
          by omega⟩

def delimiterScanner (d : List β) (hd : d ≠ []) : Scanner β where
  first := firstMatch d
  bounds := by
    intro l n h
    obtain ⟨i, rfl, hi, -⟩ := (firstMatch_some_iff hd l n).1 h
    have := hi.le hd
    have := List.length_pos_iff.2 hd
    omega
  stable := by
    intro l m n hn
    rw [firstMatch_some_iff hd, firstMatch_some_iff hd]
    refine exists_congr fun i => and_congr_right fun hni => ?_
    refine and_congr (occursAt_append (by omega)) (forall₂_congr fun j hj => ?_)
    rw [occursAt_append (by omega)]

theorem firstMatch_eq_none_iff (hd : d ≠ []) (l : List β) :
    firstMatch d l = none ↔ ∀ i, ¬ OccursAt d l i := by
  constructor
  · intro h i hi
    -- the least occurrence is the first match
    obtain ⟨j, hj, hmin⟩ := Nat.findX ⟨i, hi⟩
    rw [(firstMatch_some_iff hd l _).2 ⟨j, rfl, hj, fun k hk => hmin k hk⟩] at h
    exact absurd h (by simp)
  intro h
  cases hm : firstMatch d l with
  | none => rfl
  | some n =>
    obtain ⟨i, -, hi, -⟩ := (firstMatch_some_iff hd l n).1 hm
    exact absurd hi (h i)

theorem lastMatch_spec (d l : List β) (k : ℕ) :
    (lastMatch d l k = none ∧ ∀ i ≤ k, ¬ OccursAt d l i) ∨
      ∃ i ≤ k, lastMatch d l k = some (i + d.length) ∧ OccursAt d l i ∧ ∀ j, i < j → j ≤ k →
      ¬ OccursAt d l j := by
  fun_induction lastMatch d l k with
  | case1 h =>
    exact .inr ⟨0, le_rfl, by rw [zero_add], h, fun j h₁ h₂ => absurd h₁ (by omega)⟩
  | case2 h => exact .inl ⟨rfl, fun i hi => le_zero.1 hi ▸ h⟩
  | case3 k h => exact .inr ⟨k + 1, le_rfl, rfl, h, fun j h₁ h₂ => absurd h₁ (by omega)⟩
  | case4 k h ih =>
    rcases ih with ⟨hnone, hall⟩ | ⟨i, hi, hsome, hocc, hmax⟩
    · refine .inl ⟨hnone, fun i hi => ?_⟩
      rcases lt_or_eq_of_le hi with hi | rfl
      · exact hall i (by omega)
      · exact h
    · refine .inr ⟨i, by omega, hsome, hocc, fun j h₁ h₂ => ?_⟩
      rcases lt_or_eq_of_le h₂ with h₂ | rfl
      · exact hmax j h₁ (by omega)
      · exact h

theorem lastMatch_of_occursAt (h : OccursAt d l i) : lastMatch d l i = some (i + d.length) := by
  cases i with
  | zero => rw [lastMatch, if_pos h, zero_add]
  | succ i => rw [lastMatch, if_pos h]

theorem lastMatch_append (m : List β) {k : ℕ} (hk : k + d.length ≤ l.length) :
    lastMatch d (l ++ m) k = lastMatch d l k := by
  induction k with
  | zero => simp only [lastMatch, occursAt_append hk]
  | succ k ih => simp only [lastMatch, occursAt_append hk, ih (by omega)]

/-- **The last occurrence of a delimiter is the last record end**, if occurrences cannot overlap. -/
theorem boundary_of_occursAt (hd : d ≠ []) (hno : ¬ Overlaps d) (k : ℕ) (l : List β) (i : ℕ)
    (hl : l.length ≤ k) (hi : OccursAt d l i) :
    Boundary (delimiterScanner d hd) l (i + d.length) := by
  induction k generalizing l i with
  | zero =>
    have := hi.le hd
    have := length_pos_iff.2 hd
    omega
  | succ k ih =>
    have hpos := length_pos_iff.2 hd
    obtain ⟨n, hn⟩ : ∃ n, firstMatch d l = some n :=
      ne_none_iff_exists'.1 fun hnone => (firstMatch_eq_none_iff hd l).1 hnone i hi
    obtain ⟨j, rfl, hj, hmin⟩ := (firstMatch_some_iff hd l n).1 hn
    have hji : j ≤ i := Nat.le_of_not_lt fun h => hmin i h hi
    rcases eq_or_lt_of_le hji with rfl | hlt
    · exact Boundary.first hn
    -- the first occurrence ends before this one starts
    have hfar : j + d.length ≤ i := by
      by_contra hnear
      refine hno (overlaps_of_occursAt (t := i - j) (by omega) (by omega) hj ?_)
      rwa [show j + (i - j) = i by omega]
    have hrest : OccursAt d (l.drop (j + d.length)) (i - (j + d.length)) := by
      unfold OccursAt
      rwa [drop_drop, show j + d.length + (i - (j + d.length)) = i by omega]
    have := ih _ _ (by rw [length_drop]; omega) hrest
    rw [show i + d.length = j + d.length + (i - (j + d.length) + d.length) by omega]
    exact Boundary.next hn this

theorem lastMatch_isLast (hd : d ≠ []) (hno : ¬ Overlaps d) (l : List β) :
    IsLast (delimiterScanner d hd) l (lastMatch d l (l.length - d.length)) := by
  rcases lastMatch_spec d l (l.length - d.length) with ⟨hnone, hall⟩ | ⟨i, hi, hsome, hocc, hmax⟩
  · rw [hnone]
    refine (firstMatch_eq_none_iff hd l).2 fun i hi => hall i ?_ hi
    have := hi.le hd
    omega
  rw [hsome]
  refine ⟨boundary_of_occursAt hd hno _ l i le_rfl hocc,
    (firstMatch_eq_none_iff hd _).2 fun j hj => ?_⟩
  have hpos := length_pos_iff.2 hd
  have hj' : OccursAt d l (i + d.length + j) := by
    unfold OccursAt at hj ⊢
    rwa [← drop_drop]
  have := hj'.le hd
  exact hmax _ (by omega) (by omega) hj'

end Delimiter

end PolemoDB.Lib
