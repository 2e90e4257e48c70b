import Mathlib.Data.List.Induction
import Mathlib.Order.Nat

/-!
# A counter that is recovered from a log

Some records of a log set a counter.  After a crash the log ends anywhere behind its flushed part;
the counter is taken from a base (a value, and the place in the log where the replay starts) and
then from each record that is replayed.

* `Recoverable` — wherever the log ends, and whichever of the bases is taken, the counter is at
  least a bound;
* `Recoverable.append`, `.flush`, `.addBase`, `.raise`, `.crash` — how that is kept.
-/

namespace PolemoDB.Lib

open List Option

universe u

variable {ρ : Type u} {sets : ρ → Option Nat} {wal : List ρ} {flushed bound : Nat} {bases :
  List (Nat × Nat)}

/-! ## Replay -/

/-- The value set last by the records. -/
def lastSet (sets : ρ → Option Nat) (l : List ρ) : Option Nat :=
  l.foldl (fun v r => (sets r).or v) none

/-- The counter after the records were replayed. -/
def replay (sets : ρ → Option Nat) (v : Nat) (l : List ρ) : Nat :=
  l.foldl (fun v r => (sets r).getD v) v

theorem lastSet_nil : lastSet sets ([] : List ρ) = none := rfl

theorem lastSet_concat (l : List ρ) (r : ρ) : lastSet sets (l ++ [r]) =
    (sets r).or (lastSet sets l) :=
  foldl_append

theorem lastSet_append (l₁ l₂ : List ρ) : lastSet sets (l₁ ++ l₂) =
    (lastSet sets l₂).or (lastSet sets l₁) := by
  induction l₂ using reverseRecOn with
  | nil => rw [append_nil, lastSet_nil, none_or]
  | append_singleton l₂ r ih =>
    rw [← append_assoc, lastSet_concat, lastSet_concat, ih, Option.or_assoc]

theorem replay_eq (v : Nat) (l : List ρ) : replay sets v l = (lastSet sets l).getD v := by
  induction l using reverseRecOn with
  | nil => rfl
  | append_singleton l r ih =>
    rw [replay, foldl_append, foldl_cons, foldl_nil, lastSet_concat]
    cases sets r with
    | some w => rfl
    | none => exact ih

variable {l : List ρ} {start v : Nat}

theorem lastSet_of_drop (h : lastSet sets (l.drop start) = some v) : lastSet sets l = some v := by
  rw [← take_append_drop start l, lastSet_append, h, some_or]

theorem exists_of_lastSet (h : lastSet sets l = some v) : ∃ r ∈ l, sets r = some v := by
  induction l using reverseRecOn with
  | nil => cases h
  | append_singleton l r ih =>
    rw [lastSet_concat] at h
    cases hr : sets r with
    | some w =>
      rw [hr, some_or] at h
      exact ⟨r, mem_append_right _ mem_cons_self, hr.trans h⟩
    | none =>
      rw [hr, none_or] at h
      obtain ⟨r', hmem, hset⟩ := ih h
      exact ⟨r', mem_append_left _ hmem, hset⟩

theorem replay_lt {c : Nat} (hv : v < c) (hl : ∀ r ∈ l, ∀ w, sets r = some w → w < c) :
    replay sets v l < c := by
  rw [replay_eq]
  cases hlast : lastSet sets l with
  | none => exact hv
  | some w =>
    obtain ⟨r, hmem, hset⟩ := exists_of_lastSet hlast
    exact hl r hmem w hset

theorem take_concat_cases (wal : List ρ) (r : ρ) (n : Nat) :
    (wal ++ [r]).take n = wal.take n ∧ n ≤ wal.length ∨ (wal ++ [r]).take n = wal ++ [r] := by
  rcases Nat.lt_or_ge wal.length n with h | h
  · right
    exact take_of_length_le (by rw [length_append, length_singleton]; exact h)
  · left
    exact ⟨take_append_of_le_length h, h⟩

theorem lastSet_drop_concat_none {r : ρ} (hstart : start ≤ wal.length)
    (h : lastSet sets ((wal ++ [r]).drop start) = none) : sets r = none ∧
    lastSet sets (wal.drop start) = none := by
  rw [drop_append_of_le_length hstart, lastSet_concat, or_eq_none_iff] at h
  exact h

/-! ## Recoverable bounds -/

/-- Wherever the log ends behind its flushed part, what it sets last is at least the bound, and if
nothing behind a base is set, the value of the base is between the bound and what was set before. -/
structure Recoverable (sets : ρ → Option Nat) (wal : List ρ) (flushed : Nat)
    (bases : List (Nat × Nat)) (bound : Nat) : Prop where
  flushed_le : flushed ≤ wal.length
  start_le : ∀ b ∈ bases, b.1 ≤ wal.length
  logged : ∀ n, flushed ≤ n → ∀ v, lastSet sets (wal.take n) = some v → bound ≤ v
  based : ∀ b ∈ bases, ∀ n, flushed ≤ n → lastSet sets ((wal.take n).drop b.1) = none →
    bound ≤ b.2 ∧ ∀ v, lastSet sets (wal.take n) = some v → b.2 ≤ v

namespace Recoverable

variable {b : Nat × Nat} {n start : Nat} {r : ρ}

section

variable (h : Recoverable sets wal flushed bases bound)
include h

theorem bound_le_replay (hb : b ∈ bases)
    (hn : flushed ≤ n) : bound ≤ replay sets b.2 ((wal.take n).drop b.1) := by
  rw [replay_eq]
  cases hlast : lastSet sets ((wal.take n).drop b.1) with
  | none => exact (h.based b hb n hn hlast).1
  | some v => exact h.logged n hn v (lastSet_of_drop hlast)

/-- A record is appended; if it sets the counter, then to at least the bound. -/
theorem append (hr : ∀ v, sets r = some v → bound ≤ v) :
    Recoverable sets (wal ++ [r]) flushed bases bound := by
  have hlen : wal.length ≤ (wal ++ [r]).length := by
    rw [length_append]
    exact Nat.le_add_right _ _
  have hwhole : wal.take wal.length = wal := take_length
  refine ⟨h.flushed_le.trans hlen, fun b hb => (h.start_le b hb).trans hlen, fun n hn v hv => ?_,
    fun b hb n hn hnone => ?_⟩
  · rcases take_concat_cases wal r n with ⟨heq, -⟩ | heq
    · exact h.logged n hn v (heq ▸ hv)
    rw [heq, lastSet_concat] at hv
    cases hs : sets r with
    | some w =>
      rw [hs, some_or, some.injEq] at hv
      exact hv ▸ hr w hs
    | none =>
      rw [hs, none_or] at hv
      exact h.logged wal.length h.flushed_le v (by rw [hwhole]; exact hv)
  · rcases take_concat_cases wal r n with ⟨heq, -⟩ | heq
    · rw [heq] at hnone ⊢
      exact h.based b hb n hn hnone
    rw [heq] at hnone ⊢
    obtain ⟨hs, hold⟩ := lastSet_drop_concat_none (h.start_le b hb) hnone
    rw [lastSet_concat, hs, none_or]
    have hbase := h.based b hb wal.length h.flushed_le
    rw [hwhole] at hbase
    exact hbase hold

theorem flush (hn : flushed ≤ n) (hle : n ≤ wal.length) : Recoverable sets wal n bases bound :=
  ⟨hle, h.start_le, fun m hm => h.logged m (hn.trans hm),
  fun b hb m hm => h.based b hb m (hn.trans hm)⟩

theorem lower {bound' : Nat} (hle : bound' ≤ bound) : Recoverable sets wal flushed bases bound' :=
  ⟨h.flushed_le, h.start_le, fun n hn v hv => hle.trans (h.logged n hn v hv), fun b hb n hn hnone =>
    ⟨hle.trans (h.based b hb n hn hnone).1, (h.based b hb n hn hnone).2⟩⟩

theorem subset {bases' : List (Nat × Nat)} (hsub : bases' ⊆ bases) :
    Recoverable sets wal flushed bases' bound :=
  ⟨h.flushed_le, fun b hb => h.start_le b (hsub hb), h.logged, fun b hb => h.based b (hsub hb)⟩

theorem addBase (hstart : start ≤ wal.length) :
    Recoverable sets wal flushed ((start, bound) :: bases) bound := by
  refine ⟨h.flushed_le, forall_mem_cons.mpr ⟨hstart, h.start_le⟩, h.logged,
    forall_mem_cons.mpr ⟨fun n hn _ => ?_, h.based⟩⟩
  exact ⟨le_rfl, h.logged n hn⟩

end

theorem advanceBase {c : Nat} (h : Recoverable sets wal flushed ((start, c) :: bases) bound)
    (hr : wal[start]? = some r) (hset : sets r = none ∨ sets r = some c) :
    Recoverable sets wal flushed ((start + 1, c) :: bases) bound := by
  obtain ⟨hlt, hget⟩ := List.getElem?_eq_some_iff.mp hr
  obtain ⟨-, hstart⟩ := forall_mem_cons.mp h.start_le
  obtain ⟨hbase, hbased⟩ := forall_mem_cons.mp h.based
  refine ⟨h.flushed_le, forall_mem_cons.mpr ⟨hlt, hstart⟩, h.logged,
    forall_mem_cons.mpr ⟨fun n hn hnone => ?_, hbased⟩⟩
  rcases Nat.lt_or_ge start n with hn' | hn'
  · -- the record is in the log, and the rest sets nothing
    have hdrop : (wal.take n).drop start = r :: (wal.take n).drop (start + 1) := by
      have hlen : start < (wal.take n).length := by
        rw [length_take]
        exact lt_min hn' hlt
      rw [drop_eq_getElem_cons hlen, getElem_take, hget]
    have hlast : lastSet sets ((wal.take n).drop start) = sets r := by
      have happend : lastSet sets ([r] ++ (wal.take n).drop (start + 1)) = _ :=
        lastSet_append _ _
      rw [hnone, none_or] at happend
      rw [hdrop]
      exact happend.trans (lastSet_concat [] r |>.trans (or_none))
    rcases hset with hset | hset
    · exact hbase n hn (hlast.trans hset)
    · have hwhole := lastSet_of_drop (hlast.trans hset)
      refine ⟨h.logged n hn c hwhole, fun v hv => ?_⟩
      exact le_of_eq (some.inj (hwhole.symm.trans hv))
  · refine hbase n hn ?_
    rw [drop_eq_nil_of_le (by rw [length_take]; exact (min_le_left _ _).trans hn')]
    rfl

theorem raise (h : Recoverable sets wal flushed bases bound) {pre post : List ρ} {v : Nat}
    (hwal : wal = pre ++ r :: post) (hflushed : pre.length < flushed) (hset : sets r = some v)
    (hpost : ∀ r' ∈ post, sets r' = none) (hstart : ∀ b ∈ bases, b.1 ≤ pre.length) :
    Recoverable sets wal flushed bases v := by
  have htake : ∀ n, flushed ≤ n → ∃ post', wal.take n = pre ++ r :: post' ∧ post' ⊆ post := by
    intro n hn
    refine ⟨post.take (n - pre.length - 1), ?_, take_subset _ _⟩
    obtain ⟨k, hk⟩ : ∃ k, n - pre.length = k + 1 := Nat.exists_eq_succ_of_ne_zero (by omega)
    rw [hwal, take_append, take_of_length_le (by omega : pre.length ≤ n), hk, take_succ_cons,
      Nat.add_sub_cancel]
  have hnone : ∀ l : List ρ, (∀ r' ∈ l, sets r' = none) → lastSet sets l = none := by
    intro l hl
    induction l using reverseRecOn with
    | nil => rfl
    | append_singleton l r' ih =>
      rw [lastSet_concat, hl r' (mem_append_right _ mem_cons_self), none_or]
      exact ih fun r'' hr'' => hl r'' (mem_append_left _ hr'')
  have hlast : ∀ n, flushed ≤ n → ∀ start, start ≤ pre.length →
      lastSet sets ((wal.take n).drop start) = some v := by
    intro n hn start hle
    obtain ⟨post', htk, hsub⟩ := htake n hn
    rw [htk, drop_append_of_le_length hle, append_cons, lastSet_append,
      hnone post' fun r' hr' => hpost r' (hsub hr'), none_or, lastSet_concat, hset, some_or]
  refine ⟨h.flushed_le, h.start_le, fun n hn w hw => ?_, fun b hb n hn hno => ?_⟩
  · have := hlast n hn 0 (Nat.zero_le _)
    exact le_of_eq (some.inj (this.symm.trans hw))
  · rw [hlast n hn b.1 (hstart b hb)] at hno
    cases hno

/-- **After a crash**, with the log cut off behind its flushed part, what was recovered from a base
is the bound. -/
theorem crash (h : Recoverable sets wal flushed bases bound) (hb : b ∈ bases) (hn : flushed ≤ n)
    (hle : n ≤ wal.length) (hstart : b.1 ≤ n) :
    Recoverable sets (wal.take n) n [b] (replay sets b.2 ((wal.take n).drop b.1)) := by
  have hlen : (wal.take n).length = n := length_take_of_le hle
  have hsame : ∀ m, n ≤ m → (wal.take n).take m = wal.take n := fun m hm =>
    take_of_length_le (hlen.trans_le hm)
  have hvalue : ∀ v, lastSet sets (wal.take n) = some v →
      replay sets b.2 ((wal.take n).drop b.1) ≤ v := by
    intro v hv
    rw [replay_eq]
    cases hlast : lastSet sets ((wal.take n).drop b.1) with
    | none => exact (h.based b hb n hn hlast).2 v hv
    | some w =>
      rw [lastSet_of_drop hlast, some.injEq] at hv
      exact le_of_eq hv
  refine ⟨hlen.ge, fun b' hb' => ?_, fun m hm v hv => ?_, fun b' hb' m hm hnone => ?_⟩
  · rw [mem_singleton.mp hb', hlen]
    exact hstart
  · rw [hsame m hm] at hv
    exact hvalue v hv
  · rw [mem_singleton.mp hb'] at hnone ⊢
    rw [hsame m hm] at hnone ⊢
    refine ⟨?_, (h.based b hb n hn hnone).2⟩
    rw [replay_eq, hnone, getD_none]

end Recoverable

end PolemoDB.Lib
